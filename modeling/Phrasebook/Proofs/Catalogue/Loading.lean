import Phrasebook.Catalogue
import Phrasebook.Proofs.Files.System

/-!
# What loading can do

Each operation of a catalogue that opens files is described once, by the ways in
which it can go: `StartsAs` for the main table and `LoadsMapAs` for the map
table. The files are a state of any kind, which every opening may change, so
that the two passes over a path may meet different data. Each case names the
state that every opening finds; no other path is opened, and none in between.
-/

namespace Phrasebook.Catalogue

open Bytes

variable {σ : Type}

variable (files : FileService (StateM σ))

/-! ## Single passes -/

def readFile {α : Type} (mode : OpenMode) (path : String) (read : Source → Except LoadError α)
    (s : σ) : Except LoadError α × σ :=
  match files.openFile path mode s with
  | (none, after) => (.error (.fileNotFound path), after)
  | (some source, after) => (read source, after)

theorem readFile_of_delivered {α : Type} {mode : OpenMode} {path : String}
    {read : Source → Except LoadError α} {s after : σ} {source : Source}
    {result : Except LoadError α}
    (opened : files.openFile path mode s = (some source, after)) (outcome : read source = result) :
    readFile files mode path read s = (result, after) := by
  rw [readFile, opened, ← outcome]

theorem readFile_of_missing {α : Type} {mode : OpenMode} {path : String}
    {read : Source → Except LoadError α} {s after : σ}
    (opened : files.openFile path mode s = (none, after)) :
    readFile files mode path read s = (.error (.fileNotFound path), after) := by
  rw [readFile, opened]

def firstPass (format : Format) (path : String) : σ → Except LoadError Nat × σ :=
  readFile files format.openMode path format.expectedCount

def secondPass (format : Format) (path : String) : σ → Except LoadError Listing × σ :=
  readFile files format.openMode path format.load

section Passes

variable {files} {format : Format} {path : String} {s after : σ}

theorem expectedCount?_eq {result : Except LoadError Nat}
    (ran : firstPass files format path s = (result, after)) :
    expectedCount? files format path s = (result.toOption, after) := by
  unfold firstPass readFile at ran
  split at ran
  all_goals
    next opened =>
      cases ran
      rw [expectedCount?, bind_eq_of_eq opened]
      rfl

theorem loadTable_eq {result : Except LoadError Listing}
    (ran : secondPass files format path s = (result, after)) :
    loadTable files format path s = (result.map Table.ofListing, after) := by
  unfold secondPass readFile at ran
  split at ran
  all_goals
    next opened =>
      cases ran
      rw [loadTable, bind_eq_of_eq opened]
      rfl

end Passes

/-! ## The main table -/

/-- The plain file is not to be tried, or its first pass fails. -/
inductive PassesPlain (settings : Settings) (s : σ) : σ → Prop
  | disabled (off : settings.usePlain = false) : PassesPlain settings s s
  | unusable {e : LoadError} {after : σ} (on : settings.usePlain = true)
      (failed : firstPass files .plain settings.plainPath s = (.error e, after)) :
      PassesPlain settings s after

/-- Which file the first passes choose, and the files after them. -/
inductive Chooses (settings : Settings) (s : σ) : Option Candidate → σ → Prop
  | plain {count : Nat} {after : σ} (on : settings.usePlain = true)
      (promised : firstPass files .plain settings.plainPath s = (.ok count, after)) :
      Chooses settings s (some { format := .plain, path := settings.plainPath, count }) after
  | compiled {count : Nat} {middle after : σ} (passed : PassesPlain files settings s middle)
      (promised : firstPass files .compiled settings.compiledPath middle = (.ok count, after)) :
      Chooses settings s (some { format := .compiled, path := settings.compiledPath, count }) after
  | none {e : LoadError} {middle after : σ} (passed : PassesPlain files settings s middle)
      (failed : firstPass files .compiled settings.compiledPath middle = (.error e, after)) :
      Chooses settings s none after

theorem candidate?_of_passesPlain {settings : Settings} {s middle : σ}
    (passed : PassesPlain files settings s middle) :
    candidate? files settings s =
      ((expectedCount? files .compiled settings.compiledPath middle).1.map fun count =>
          { format := .compiled, path := settings.compiledPath, count },
        (expectedCount? files .compiled settings.compiledPath middle).2) := by
  cases passed with
  | disabled off =>
      rw [candidate?, off]
      rfl
  | unusable on failed =>
      rw [candidate?, if_pos on, bind_eq_of_eq (expectedCount?_eq failed)]
      rfl

theorem candidate?_eq {settings : Settings} {s after : σ} {chosen : Option Candidate}
    (chooses : Chooses files settings s chosen after) :
    candidate? files settings s = (chosen, after) := by
  cases chooses with
  | plain on promised =>
      rw [candidate?, if_pos on, bind_eq_of_eq (expectedCount?_eq promised)]
      rfl
  | compiled passed ran | none passed ran =>
      rw [candidate?_of_passesPlain files passed, expectedCount?_eq ran]
      rfl

theorem exists_chooses (settings : Settings) (s : σ) :
    ∃ chosen after, Chooses files settings s chosen after := by
  have compiled {middle : σ} (passed : PassesPlain files settings s middle) :
      ∃ chosen after, Chooses files settings s chosen after := by
    rcases ran : firstPass files .compiled settings.compiledPath middle with ⟨e | count, after⟩
    · exact ⟨_, _, .none passed ran⟩
    · exact ⟨_, _, .compiled passed ran⟩
  by_cases on : settings.usePlain = true
  · rcases ran : firstPass files .plain settings.plainPath s with ⟨e | count, after⟩
    · exact compiled (.unusable on ran)
    · exact ⟨_, _, .plain on ran⟩
  · exact compiled (.disabled (by simpa using on))

theorem ok_of_readFile {α : Type} {mode : OpenMode} {path : String}
    {read : Source → Except LoadError α} {s after : σ} {a : α}
    (ran : readFile files mode path read s = (.ok a, after)) :
    ∃ source, files.openFile path mode s = (some source, after) ∧ read source = .ok a := by
  unfold readFile at ran
  split at ran
  next => cases ran
  next source middle opened =>
    rcases Prod.mk.inj ran with ⟨read, rfl⟩
    exact ⟨source, opened, read⟩

theorem countMargin_le_of_count {source : Source} {count : Nat}
    (counted : Plain.count source = .ok count) : Plain.countMargin ≤ count := by
  unfold Plain.count at counted
  split at counted
  next => cases counted
  next n _ =>
    cases counted
    exact Nat.le_add_left _ n

/-- Only a compiled file can promise nothing; for a plain one there is the margin. -/
theorem Chooses.eq_of_count_eq_zero {settings : Settings} {s after : σ} {chosen : Candidate}
    (chooses : Chooses files settings s (some chosen) after) (nothing : chosen.count = 0) :
    chosen = { format := .compiled, path := settings.compiledPath, count := 0 } := by
  cases chooses with
  | compiled =>
      cases nothing
      rfl
  | plain on promised =>
      rcases ok_of_readFile files promised with ⟨source, -, counted⟩
      have margin := countMargin_le_of_count counted
      cases nothing
      exact absurd margin (by decide)

/-! ## Serving from a table -/

theorem fetch_of_main {c : Catalogue} {main : Table} (loaded : c.main = some main)
    (label : String) :
    c.fetch label =
      match c.find? label with
      | some text => ({ text, found := true }, c)
      | none => ({ text := missingPlaceholder label, found := false }, c.noteMissing label) := by
  cases found : c.find? label <;> simp [fetch, loaded, found]

theorem noteMissing_eq (c : Catalogue) (label : String) :
    c.noteMissing label = { c with missing := (c.noteMissing label).missing } := by
  unfold noteMissing
  split <;> rfl

theorem missing_noteMissing (c : Catalogue) (label : String) :
    (c.noteMissing label).missing =
      if missingPlaceholder label ∈ c.missing then c.missing
      else c.missing ++ [missingPlaceholder label] := by
  unfold noteMissing
  split <;> rfl

theorem fetch_snd_eq (c : Catalogue) (label : String) :
    (c.fetch label).2 = { c with missing := (c.fetch label).2.missing } := by
  unfold fetch
  split
  · rfl
  · split
    · rfl
    · exact c.noteMissing_eq label

theorem find?_congr {a b : Catalogue} (main : a.main = b.main) (map : a.map = b.map)
    (label : String) : a.find? label = b.find? label := by
  unfold find?
  rw [main, map]

section Install

variable (c : Catalogue) (format : Format) (table : Table)

def untitled : Catalogue :=
  { c with maxLabelLen := table.maxLabelLen, format := some format, main := some table }

theorem install_eq :
    c.install format table =
      { c with
        main := some table
        format := some format
        title := some ((c.install format table).fetch c.settings.titleLabel).1.text
        maxLabelLen := table.maxLabelLen
        missing :=
          if ((c.install format table).find? c.settings.titleLabel).isSome then c.missing
          else (c.noteMissing c.settings.titleLabel).missing } := by
  have whole : c.install format table =
      { ((c.untitled format table).fetch c.settings.titleLabel).2 with
        title := some ((c.untitled format table).fetch c.settings.titleLabel).1.text } := rfl
  rw [fetch_snd_eq] at whole
  have same : (c.install format table).find? c.settings.titleLabel =
      (c.untitled format table).find? c.settings.titleLabel := by
    rw [whole]
    exact find?_congr rfl rfl _
  have served : (c.install format table).main = some table := by
    rw [whole]
    rfl
  rw [fetch_of_main served, same]
  rw [fetch_of_main rfl] at whole
  cases found : (c.untitled format table).find? c.settings.titleLabel with
  | some text =>
      rw [found] at whole
      exact whole
  | none =>
      have noted : ((c.untitled format table).noteMissing c.settings.titleLabel).missing =
          (c.noteMissing c.settings.titleLabel).missing := by
        rw [missing_noteMissing, missing_noteMissing]
        rfl
      rw [found] at whole
      dsimp only at whole
      rw [noted] at whole
      exact whole

theorem main_install : (c.install format table).main = some table := by rw [install_eq]

theorem format_install : (c.install format table).format = some format := by rw [install_eq]

theorem map_install : (c.install format table).map = c.map := by rw [install_eq]

theorem maxLabelLen_install : (c.install format table).maxLabelLen = table.maxLabelLen := by
  rw [install_eq]

end Install

/-- The ways in which starting can go. -/
inductive StartsAs (c : Catalogue) (s : σ) : Catalogue → σ → Prop
  | again (started : c.started = true) : StartsAs c s c s
  | unserved {after : σ} (fresh : c.started = false)
      (chooses : Chooses files c.settings s none after) :
      StartsAs c s { c with started := true, maxLabelLen := 0 } after
  | empty {chosen : Candidate} {after : σ} (fresh : c.started = false)
      (chooses : Chooses files c.settings s (some chosen) after) (nothing : chosen.count = 0) :
      StartsAs c s { c with started := true, maxLabelLen := 0 } after
  | dropped {chosen : Candidate} {middle after : σ} {e : LoadError} (fresh : c.started = false)
      (chooses : Chooses files c.settings s (some chosen) middle) (promised : chosen.count ≠ 0)
      (failed : secondPass files chosen.format chosen.path middle = (.error e, after)) :
      StartsAs c s c.shutDown after
  | served {chosen : Candidate} {middle after : σ} {listing : Listing} (fresh : c.started = false)
      (chooses : Chooses files c.settings s (some chosen) middle) (promised : chosen.count ≠ 0)
      (loaded : secondPass files chosen.format chosen.path middle = (.ok listing, after)) :
      StartsAs c s
        (install { c with started := true, maxLabelLen := 0 } chosen.format (.ofListing listing))
        after

theorem start_eq {c result : Catalogue} {s after : σ} (starts : StartsAs files c s result after) :
    c.start files s = (result, after) := by
  cases starts with
  | again started =>
      rw [start, if_pos started]
      rfl
  | unserved fresh chooses =>
      rw [start, fresh, if_neg Bool.false_ne_true, bind_eq_of_eq (candidate?_eq files chooses)]
      rfl
  | empty fresh chooses nothing =>
      rw [start, fresh, if_neg Bool.false_ne_true, bind_eq_of_eq (candidate?_eq files chooses)]
      dsimp only
      rw [if_pos nothing]
      rfl
  | dropped fresh chooses promised ran | served fresh chooses promised ran =>
      rw [start, fresh, if_neg Bool.false_ne_true, bind_eq_of_eq (candidate?_eq files chooses)]
      dsimp only
      rw [if_neg promised, bind_eq_of_eq (loadTable_eq ran)]
      rfl

theorem exists_startsAs (c : Catalogue) (s : σ) :
    ∃ result after, StartsAs files c s result after := by
  cases fresh : c.started with
  | true => exact ⟨_, _, .again fresh⟩
  | false =>
      rcases exists_chooses files c.settings s with ⟨_ | chosen, middle, chooses⟩
      · exact ⟨_, _, .unserved fresh chooses⟩
      · by_cases nothing : chosen.count = 0
        · exact ⟨_, _, .empty fresh chooses nothing⟩
        · rcases ran : secondPass files chosen.format chosen.path middle with ⟨e | listing, after⟩
          · exact ⟨_, _, .dropped fresh chooses nothing ran⟩
          · exact ⟨_, _, .served fresh chooses nothing ran⟩

theorem startsAs_start (c : Catalogue) (s : σ) :
    StartsAs files c s (c.start files s).1 (c.start files s).2 := by
  rcases exists_startsAs files c s with ⟨result, after, starts⟩
  rwa [start_eq files starts]

/-! ## The map table -/

/-- The ways in which loading a map table can go, with what is told about it. -/
inductive LoadsMapAs (path : String) (c : Catalogue) (s : σ) :
    Except LoadError Nat → Catalogue → σ → Prop
  | unusable {e : LoadError} {after : σ}
      (failed : firstPass files .plain path s = (.error e, after)) :
      LoadsMapAs path c s (.error (.fileNotFound path)) c.unloadMap after
  | dropped {count : Nat} {e : LoadError} {middle after : σ}
      (promised : firstPass files .plain path s = (.ok count, middle))
      (failed : secondPass files .plain path middle = (.error e, after)) :
      LoadsMapAs path c s (.error e) c.unloadMap after
  | loaded {count : Nat} {listing : Listing} {middle after : σ}
      (promised : firstPass files .plain path s = (.ok count, middle))
      (loaded : secondPass files .plain path middle = (.ok listing, after)) :
      LoadsMapAs path c s (.ok (Table.ofListing listing).size)
        { c with
          map := some (.ofListing listing)
          maxLabelLen := max c.maxLabelLen (Table.ofListing listing).maxLabelLen }
        after

theorem loadMap_eq {path : String} {c result : Catalogue} {s after : σ}
    {told : Except LoadError Nat} (loads : LoadsMapAs files path c s told result after) :
    c.loadMap files path s = ((told, result), after) := by
  unfold loadMap
  cases loads with
  | unusable failed =>
      rw [bind_eq_of_eq (expectedCount?_eq failed)]
      rfl
  | dropped promised ran | loaded promised ran =>
      rw [bind_eq_of_eq (expectedCount?_eq promised)]
      dsimp only [Except.toOption]
      rw [bind_eq_of_eq (loadTable_eq ran)]
      rfl

theorem exists_loadsMapAs (path : String) (c : Catalogue) (s : σ) :
    ∃ told result after, LoadsMapAs files path c s told result after := by
  rcases first : firstPass files .plain path s with ⟨e | count, middle⟩
  · exact ⟨_, _, _, .unusable first⟩
  · rcases second : secondPass files .plain path middle with ⟨e | listing, after⟩
    · exact ⟨_, _, _, .dropped first second⟩
    · exact ⟨_, _, _, .loaded first second⟩

theorem loadsMapAs_loadMap (path : String) (c : Catalogue) (s : σ) :
    LoadsMapAs files path c s (c.loadMap files path s).1.1 (c.loadMap files path s).1.2
      (c.loadMap files path s).2 := by
  rcases exists_loadsMapAs files path c s with ⟨told, result, after, loads⟩
  rwa [loadMap_eq files loads]

end Phrasebook.Catalogue

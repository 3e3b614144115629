import Phrasebook.Proofs.Catalogue.Serving

/-!
# Main tables without entries

A main table has no entries exactly if the file it was loaded from has none.
Such a file is refused only if its first pass promises nothing, which only the
header of a compiled file can do: the count of a plain file has room to spare.
-/

namespace Phrasebook.Catalogue

variable {σ : Type} {files : FileService (StateM σ)} {settings : Settings} {c : Catalogue}

theorem isLoaded_iff : c.isLoaded = true ↔ ∃ main, c.main = some main := Option.isSome_iff_exists

theorem textCount_of_main {main : Table} (loaded : c.main = some main) :
    c.textCount = main.size := by
  simp [textCount, loaded]

theorem size_ofListing (listing : Listing) :
    (Table.ofListing listing).size = listing.entries.length := List.size_toArray ..

theorem main_start_of_serves {s : σ} {chosen : Candidate} {listing : Listing}
    (serves : Serves files settings s chosen listing) (same : c.settings = settings)
    (fresh : c.started = false) : (c.start files s).1.main = some (.ofListing listing) := by
  rw [start_of_serves files serves same fresh, main_install]

def ServesEntries (files : FileService (StateM σ)) (settings : Settings) : Prop :=
  ∀ s chosen listing, Serves files settings s chosen listing → listing.entries ≠ []

theorem Reachable.textCount_pos (serves : ServesEntries files settings)
    (reached : Reachable files settings c) (loaded : c.isLoaded = true) : 0 < c.textCount := by
  have each {s : σ} {chosen : Candidate} {listing : Listing}
      (served : Serves files settings s chosen listing) : 0 < (Table.ofListing listing).size := by
    rw [size_ofListing]
    exact List.length_pos_iff.mpr (serves s chosen listing served)
  rcases isLoaded_iff.mp loaded with ⟨main, there⟩
  rcases reached.main_of_serves (fun _ table => 0 < table.size) each main there with
    ⟨-, -, positive⟩
  rwa [textCount_of_main there]

theorem textCount_start_of_serves {s : σ} {chosen : Candidate} {listing : Listing}
    (serves : Serves files settings s chosen listing) (same : c.settings = settings)
    (fresh : c.started = false) :
    (c.start files s).1.isLoaded = true ∧
      (c.start files s).1.textCount = listing.entries.length := by
  have loaded := main_start_of_serves serves same fresh
  exact ⟨isLoaded_iff.mpr ⟨_, loaded⟩, (textCount_of_main loaded).trans (size_ofListing listing)⟩

theorem topmost?_of_empty {listing : Listing} (empty : listing.entries = []) (map : Option Table)
    (label : String) :
    topmost? (.ofListing listing) map label = map.bind fun map => map.entryUnder? label := by
  have none : (Table.ofListing listing).entryUnder? label = none := by
    simp [Table.entryUnder?, Table.ofListing, empty]
  unfold topmost?
  rw [none]
  cases map <;> rfl

theorem start_of_promise_zero (coherent : Coherent settings c) (fresh : c.started = false)
    {s middle : σ} {chosen : Candidate} (chooses : Chooses files settings s (some chosen) middle)
    (nothing : chosen.count = 0) : (c.start files s).1.main = none := by
  have same := coherent.settings
  rw [← same] at chooses
  rw [start_eq files (.empty fresh chooses nothing)]
  exact coherent.main_eq_none fresh

/--
A loaded main table always has phrases exactly if every file that is served has
entries. What matters is the promise of the first pass: a compiled file that
promises none leaves no main table, so that every label gets the fatal
placeholder, while a file that promises some and has none is served all the same.
-/
theorem textCount_pos_iff (files : FileService (StateM σ)) (settings : Settings) :
    ((∀ c, Reachable files settings c → c.isLoaded = true → 0 < c.textCount) ↔
      ServesEntries files settings) ∧
    ∀ c, Reachable files settings c → c.started = false → ∀ s chosen middle,
      Chooses files settings s (some chosen) middle →
      (chosen.count = 0 →
        chosen.format = .compiled ∧ (c.start files s).1.isLoaded = false ∧
          ∀ label, (c.start files s).1.fetch label =
            ({ text := fatalPlaceholder, found := false }, (c.start files s).1)) ∧
      (chosen.count ≠ 0 → ∀ listing after,
        secondPass files chosen.format chosen.path middle = (.ok listing, after) →
        listing.entries = [] →
        (c.start files s).1.isLoaded = true ∧ (c.start files s).1.textCount = 0 ∧
          ∀ label, ((c.start files s).1.fetch label).1 =
            match c.map.bind fun map => map.entryUnder? label with
            | some e => { text := e.text, found := true }
            | none => { text := missingPlaceholder label, found := false }) := by
  refine ⟨⟨?_, fun serves c reached => reached.textCount_pos serves⟩, ?_⟩
  · intro always s chosen listing serves empty
    rcases textCount_start_of_serves (c := { settings }) serves rfl rfl with ⟨loaded, count⟩
    have pos := always _ (Reachable.new.step .start s) loaded
    change 0 < (start files { settings } s).1.textCount at pos
    rw [count, empty] at pos
    cases pos
  · intro c reached fresh s chosen middle chooses
    have coherent := reached.coherent
    constructor
    · intro nothing
      have absent := start_of_promise_zero coherent fresh chooses nothing
      refine ⟨?_, ?_, ?_⟩
      · rw [chooses.eq_of_count_eq_zero files nothing]
      · rw [isLoaded, absent]
        rfl
      · intro label
        rw [fetch, absent]
    · intro promised listing after ran empty
      have serves : Serves files settings s chosen listing :=
        ⟨middle, after, chooses, promised, ran⟩
      rcases textCount_start_of_serves serves coherent.settings fresh with ⟨loaded, count⟩
      have there := main_start_of_serves serves coherent.settings fresh
      refine ⟨loaded, by rw [count, empty]; rfl, ?_⟩
      intro label
      have kept : (c.start files s).1.map = c.map := by
        rw [start_of_serves files serves coherent.settings fresh, map_install]
      have begun : Reachable files settings (c.start files s).1 := reached.step .start s
      rw [fetch_eq_layered begun there, topmost?_of_empty empty, kept]
      cases c.map.bind fun map => map.entryUnder? label <;> rfl

/-! ## An empty file -/

def emptyListing : Listing := { entries := [], maxLabelLen := 0, languageId := 0 }

def emptyFiles : FileService (StateM Unit) := settledFiles fun _ => some []

theorem serves_emptyFiles : ∃ chosen, Serves emptyFiles {} () chosen emptyListing := by
  have counted : Plain.count (.ofBytes []) = .ok 500 := by cbv
  have loaded : Plain.load (.ofBytes []) = .ok emptyListing := by cbv
  have opened (path : String) : emptyFiles.openFile path .text () = (some (.ofBytes []), ()) :=
    openFile_settledFiles rfl .text
  exact ⟨_, (), (), .plain rfl (readFile_of_delivered _ (opened _) counted), by decide,
    readFile_of_delivered _ (opened _) loaded⟩

/-- A catalogue that is started on an empty file has a main table without phrases. -/
theorem not_textCount_pos_of_reachable :
    ¬∀ (files : FileService (StateM Unit)) (settings : Settings) (c : Catalogue),
      Reachable files settings c → c.isLoaded = true → 0 < c.textCount := by
  intro always
  rcases serves_emptyFiles with ⟨chosen, serves⟩
  have fresh : Catalogue.started { settings := {} } = false := rfl
  rcases textCount_start_of_serves serves rfl fresh with ⟨loaded, count⟩
  have pos := always emptyFiles {} _ (Reachable.new.step .start ()) loaded
  change 0 < (start emptyFiles { settings := {} } ()).1.textCount at pos
  rw [count] at pos
  cases pos

end Phrasebook.Catalogue

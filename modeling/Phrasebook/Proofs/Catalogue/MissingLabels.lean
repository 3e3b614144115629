import Mathlib.Data.List.DropRight
import Mathlib.Data.List.Induction
import Phrasebook.Proofs.Catalogue.Serving

/-!
# The history of missing labels

The labels that a catalogue remembers as missing are told by what has happened
to it: each label that was fetched in vain since everything was last dropped is
remembered once, in the order of the first such fetch. Starting fetches the
title, and drops everything if it fails halfway.
-/

namespace Phrasebook.Catalogue

variable {σ : Type} (files : FileService (StateM σ))

/-! ## What has happened -/

inductive Event
  /-- A label was fetched that neither table had, while there was a main table. -/
  | missed (label : String)
  /-- Everything was dropped. -/
  | dropped
  deriving DecidableEq, Repr

/-- There is a main table, and no entry of it or of the map table has the label. -/
def lacks (c : Catalogue) (label : String) : Bool :=
  match c.main with
  | none => false
  | some main => (topmost? main c.map label).isNone

def eventsOfFetch (c : Catalogue) (label : String) : List Event :=
  if c.lacks label then [.missed label] else []

/--
A start that fails halfway leaves the catalogue not started. After any other the
title has been fetched, which tells nothing as long as there is no main table.
-/
def eventsOfStart (c : Catalogue) (s : σ) : List Event :=
  let result := (c.start files s).1
  if c.started then []
  else if result.started then result.eventsOfFetch c.settings.titleLabel
  else [.dropped]

/-- Maps tell nothing, and neither does what only looks at a catalogue, such as `fetchOr`. -/
def eventsOf (operation : Operation) (c : Catalogue) (s : σ) : List Event :=
  match operation with
  | .start => c.eventsOfStart files s
  | .fetch label => c.eventsOfFetch label
  | .shutDown => [.dropped]
  | .loadMap _ | .unloadMap => []

def history (c : Catalogue) : List (Operation × σ) → List Event
  | [] => []
  | (operation, s) :: rest =>
      eventsOf files operation c s ++ history (perform files operation c s).1 rest

/-- The labels that were missed since everything was last dropped, as often as they were. -/
def missedSinceDrop (events : List Event) : List String :=
  (events.rtakeWhile (· ≠ .dropped)).filterMap fun event =>
    match event with
    | .missed label => some label
    | .dropped => none

@[simp] theorem missedSinceDrop_nil : missedSinceDrop [] = [] := rfl

theorem missedSinceDrop_missed (events : List Event) (label : String) :
    missedSinceDrop (events ++ [.missed label]) = missedSinceDrop events ++ [label] := by
  simp [missedSinceDrop]

theorem missedSinceDrop_dropped (events : List Event) :
    missedSinceDrop (events ++ [.dropped]) = [] := by
  simp [missedSinceDrop]

theorem history_append (c : Catalogue) (steps more : List (Operation × σ)) :
    history files c (steps ++ more) =
      history files c steps ++ history files (c.performAll files steps) more := by
  induction steps generalizing c with
  | nil => rfl
  | cons step rest ih =>
      rw [List.cons_append, history, history, ih, List.append_assoc]
      rfl

theorem eraseDups_concat {α : Type} [DecidableEq α] (list : List α) (last : α) :
    (list ++ [last]).eraseDups =
      if last ∈ list.eraseDups then list.eraseDups else list.eraseDups ++ [last] := by
  have member := List.mem_eraseDups (a := last) (l := list)
  rw [List.eraseDups_append]
  by_cases known : last ∈ list <;> simp [List.removeAll, List.eraseDups_cons, member, known]

/-! ## One operation -/

theorem missingPlaceholder_inj {a b : String} :
    missingPlaceholder a = missingPlaceholder b ↔ a = b := by
  simp [missingPlaceholder]

theorem missingPlaceholder_mem_map {label : String} {labels : List String} :
    missingPlaceholder label ∈ labels.map missingPlaceholder ↔ label ∈ labels :=
  List.mem_map_of_injective fun _ _ => missingPlaceholder_inj.mp

/-- What the catalogue remembers are the placeholders of what these events tell. -/
def Remembers (c : Catalogue) (events : List Event) : Prop :=
  c.missing = (missedSinceDrop events).eraseDups.map missingPlaceholder

section Steps

variable {files} {settings : Settings} {c : Catalogue} {past : List Event}

theorem lacks_of_main (reached : Reachable files settings c) {main : Table}
    (loaded : c.main = some main) (label : String) :
    c.lacks label = (c.find? label).isNone := by
  rw [find?_eq_topmost? reached loaded, Option.isNone_map, lacks, loaded]

theorem Remembers.noteMissing (remembers : Remembers c past) (label : String) :
    Remembers (c.noteMissing label) (past ++ [.missed label]) := by
  unfold Remembers at *
  rw [missing_noteMissing, missedSinceDrop_missed, eraseDups_concat, remembers]
  simp only [missingPlaceholder_mem_map]
  split
  · rfl
  · rw [List.map_append, List.map_singleton]

theorem Remembers.of_missing {other : Catalogue} (remembers : Remembers c past)
    (same : other.missing = c.missing) : Remembers other past := by
  rw [Remembers, same]
  exact remembers

theorem Remembers.fetch (remembers : Remembers c past) (reached : Reachable files settings c)
    (label : String) : Remembers (c.fetch label).2 (past ++ c.eventsOfFetch label) := by
  cases loaded : c.main with
  | none =>
      have unchanged : (c.fetch label).2 = c := by rw [Catalogue.fetch, loaded]
      have silent : c.eventsOfFetch label = [] := by simp [eventsOfFetch, lacks, loaded]
      rwa [unchanged, silent, List.append_nil]
  | some main =>
      rw [fetch_of_main loaded, eventsOfFetch, lacks_of_main reached loaded]
      cases c.find? label with
      | some text => simpa using remembers
      | none => exact remembers.noteMissing label

theorem Remembers.install (remembers : Remembers c past) {format : Format} {table : Table}
    (reached : Reachable files settings (c.install format table)) :
    Remembers (c.install format table)
      (past ++ (c.install format table).eventsOfFetch c.settings.titleLabel) := by
  have loaded := main_install c format table
  have missing := congrArg Catalogue.missing (install_eq c format table)
  dsimp only at missing
  rw [eventsOfFetch, lacks_of_main reached loaded]
  cases found : (c.install format table).find? c.settings.titleLabel with
  | some text =>
      rw [found] at missing
      simpa using remembers.of_missing missing
  | none =>
      rw [found] at missing
      exact (remembers.noteMissing _).of_missing missing

theorem Remembers.start (remembers : Remembers c past) (reached : Reachable files settings c)
    (s : σ) : Remembers (c.start files s).1 (past ++ c.eventsOfStart files s) := by
  have begun : Reachable files settings (c.start files s).1 := reached.step .start s
  have starts := startsAs_start files c s
  unfold eventsOfStart
  generalize (c.start files s).1 = result, (c.start files s).2 = after at starts begun ⊢
  cases starts with
  | again started => simpa [started] using remembers
  | unserved fresh | empty fresh =>
      have absent : c.main = none := reached.coherent.main_eq_none fresh
      have silent : eventsOfFetch { c with started := true, maxLabelLen := 0 }
          c.settings.titleLabel = [] := by simp [eventsOfFetch, lacks, absent]
      simp only [fresh, Bool.false_eq_true, if_false, if_true, silent, List.append_nil]
      exact remembers.of_missing rfl
  | dropped fresh =>
      have gone : c.shutDown.started = false := rfl
      simp only [fresh, gone, Bool.false_eq_true, if_false, Remembers, missedSinceDrop_dropped]
      rfl
  | @served chosen _ _ listing fresh =>
      have running := congrArg Catalogue.started
        (install_eq { c with started := true, maxLabelLen := 0 } chosen.format
          (.ofListing listing))
      simp only [fresh, running, Bool.false_eq_true, if_false, if_true]
      have opened : Remembers { c with started := true, maxLabelLen := 0 } past :=
        remembers.of_missing rfl
      exact opened.install begun

theorem missing_loadMap (path : String) (c : Catalogue) (s : σ) :
    (c.loadMap files path s).1.2.missing = c.missing := by
  obtain ⟨told, result, after, loads⟩ := exists_loadsMapAs files path c s
  rw [loadMap_eq files loads]
  cases loads with
  | unusable | dropped | loaded => rfl

theorem Remembers.perform (remembers : Remembers c past) (reached : Reachable files settings c)
    (operation : Operation) (s : σ) :
    Remembers (perform files operation c s).1 (past ++ eventsOf files operation c s) := by
  cases operation with
  | start => exact remembers.start reached s
  | loadMap path =>
      rw [eventsOf, List.append_nil]
      exact remembers.of_missing (missing_loadMap path c s)
  | unloadMap =>
      rw [eventsOf, List.append_nil]
      exact remembers.of_missing rfl
  | shutDown =>
      rw [Remembers, eventsOf, missedSinceDrop_dropped]
      rfl
  | fetch label => exact remembers.fetch reached label

end Steps

/-! ## Runs -/

theorem Remembers.performAll {settings : Settings} {c : Catalogue} {past : List Event}
    (remembers : Remembers c past) (reached : Reachable files settings c)
    (steps : List (Operation × σ)) :
    Remembers (c.performAll files steps) (past ++ history files c steps) := by
  induction steps generalizing c past with
  | nil =>
      rw [history, List.append_nil]
      exact remembers
  | cons step rest ih =>
      rw [history, ← List.append_assoc]
      exact ih (remembers.perform reached step.1 step.2) (reached.step step.1 step.2)

theorem missing_performAll (settings : Settings) (steps : List (Operation × σ)) :
    (performAll files { settings } steps).missing =
      (missedSinceDrop (history files { settings } steps)).eraseDups.map missingPlaceholder := by
  have empty : Remembers { settings } [] := rfl
  exact empty.performAll files .new steps

theorem missedSinceDrop_append {events more : List Event} (kept : .dropped ∉ more) :
    missedSinceDrop (events ++ more) = missedSinceDrop events ++ missedSinceDrop more := by
  have all : ∀ event ∈ more.reverse, decide (event ≠ .dropped) = true := by
    intro event member
    rw [decide_eq_true_eq]
    rintro rfl
    exact kept (List.mem_reverse.mp member)
  unfold missedSinceDrop List.rtakeWhile
  rw [List.reverse_append, List.takeWhile_append_of_pos all, List.takeWhile_eq_self_iff.mpr all,
    List.reverse_append, List.reverse_reverse, List.filterMap_append]

theorem nodup_eraseDups {α : Type} [DecidableEq α] (list : List α) : list.eraseDups.Nodup := by
  induction list using List.reverseRecOn with
  | nil => exact .nil
  | append_singleton list last ih =>
      rw [eraseDups_concat]
      split
      next => exact ih
      next new =>
          rw [← List.concat_eq_append]
          exact ih.concat new

/--
After every run the placeholders are those of the labels that were missed since
everything was last dropped, each once, the earliest first. No two labels share
a placeholder. Maps come and go without a change to them, and what is on the
list stays there until everything is dropped.
-/
theorem missingTexts_eq_history (settings : Settings) (steps : List (Operation × σ)) :
    let c := performAll files { settings } steps
    let missed := missedSinceDrop (history files { settings } steps)
    c.missingTexts = missed.eraseDups.map (fun label => "MISSING: '" ++ label ++ "'") ∧
      c.missingTexts.Nodup ∧
      (∀ label, missingPlaceholder label ∈ c.missingTexts ↔ label ∈ missed) ∧
      (∀ path s, (perform files (.loadMap path) c s).1.missingTexts = c.missingTexts) ∧
      (∀ s, (perform files .unloadMap c s).1.missingTexts = c.missingTexts) ∧
      ∀ more, .dropped ∉ history files c more →
        c.missingTexts <+: (c.performAll files more).missingTexts := by
  intro c missed
  have texts : c.missingTexts = missed.eraseDups.map missingPlaceholder :=
    missing_performAll files settings steps
  refine ⟨texts, ?_, ?_, ?_, ?_, ?_⟩
  · rw [texts]
    exact (nodup_eraseDups missed).map fun a b => missingPlaceholder_inj.mp
  · intro label
    rw [texts, missingPlaceholder_mem_map, List.mem_eraseDups]
  · exact fun path s => missing_loadMap path c s
  · exact fun _ => rfl
  · intro more kept
    have later := missing_performAll files settings (steps ++ more)
    rw [performAll_append, history_append, missedSinceDrop_append kept, List.eraseDups_append,
      List.map_append, ← texts] at later
    exact ⟨_, later.symm⟩

/-! ## A label that comes with a map -/

/-- The label is missed at first, and stays on the list when a map has brought it. -/
theorem missingTexts_eq_history_brought :
    let c := performAll bothFiles { settings := {} }
      [(.start, ()), (.fetch "b", ()), (.fetch "B", ()), (.fetch "b", ())]
    let mapped := c.performAll bothFiles [(.loadMap "map", ())]
    c.missingTexts =
        ["MISSING: 'GUI:Command&ConquerGenerals'", "MISSING: 'b'", "MISSING: 'B'"] ∧
      .dropped ∉ history bothFiles c [(.loadMap "map", ())] ∧
      (mapped.fetch "b").1 = { text := "map", found := true } ∧
      c.missingTexts <+: mapped.missingTexts := by
  intro c mapped
  obtain ⟨-, -, -, -, -, stays⟩ := missingTexts_eq_history bothFiles {}
    [(.start, ()), (.fetch "b", ()), (.fetch "B", ()), (.fetch "b", ())]
  have begin : (start bothFiles { settings := {} } ()).1 =
      install { settings := {}, started := true } .plain (.ofListing mainListing) :=
    perform_start_printed { settings := {} } rfl rfl mapListing
  have counted : Plain.count (.ofBytes (Plain.print mapListing.entries)) = .ok 502 := by cbv
  have there : printedFiles mainListing mapListing "map" =
      some (Plain.print mapListing.entries) := rfl
  have asked : c = ((((start bothFiles { settings := {} } ()).1.fetch "b").2.fetch "B").2.fetch
      "b").2 := rfl
  rw [begin] at asked
  have kept : .dropped ∉ history bothFiles c [(.loadMap "map", ())] := List.not_mem_nil
  refine ⟨?_, kept, ?_, stays _ kept⟩
  · rw [asked]
    cbv
  · have laid : mapped = _ := perform_loadMap_settled c there counted load_print_mapListing
    rw [laid, asked]
    cbv

end Phrasebook.Catalogue

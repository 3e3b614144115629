import Phrasebook.Proofs.Catalogue.Settled

/-!
# The longest label of both tables

The length that a catalogue reports bounds the labels of its main table after
every run. It bounds those of the map table as well, as long as the catalogue is
never started over a map: starting forgets how long the labels of the map are,
but keeps the map.
-/

namespace Phrasebook.Catalogue

variable {σ : Type} {files : FileService (StateM σ)} {settings : Settings}

def MainCovered (c : Catalogue) : Prop :=
  ∀ main, c.main = some main → main.maxLabelLen ≤ c.maxLabelLen

def MapCovered (c : Catalogue) : Prop := ∀ map, c.map = some map → map.maxLabelLen ≤ c.maxLabelLen

def mainLabelLen (c : Catalogue) : Nat := (c.main.map Table.maxLabelLen).getD 0

section Steps

variable {c result : Catalogue} {operation : Operation} {s after : σ}

theorem MainCovered.performed (covered : MainCovered c) (coherent : Coherent settings c)
    (performs : PerformsAs files c s operation result after) : MainCovered result := by
  intro main loaded
  cases performs with
  | start starts =>
      cases starts with
      | again => exact covered main loaded
      | unserved fresh | empty fresh =>
          change c.main = some main at loaded
          rw [coherent.main_eq_none fresh] at loaded
          cases loaded
      | dropped => cases loaded
      | served =>
          rw [main_install] at loaded
          cases loaded
          rw [maxLabelLen_install]
  | loadMap loads =>
      cases loads with
      | unusable | dropped => exact covered main loaded
      | loaded => exact Nat.le_trans (covered main loaded) (Nat.le_max_left _ _)
  | unloadMap => exact covered main loaded
  | shutDown => cases loaded
  | fetch label =>
      rw [fetch_snd_eq] at loaded ⊢
      exact covered main loaded

/-- Starting is the one operation that can lose the bound, and only over a map. -/
theorem MapCovered.performed (covered : MapCovered c)
    (performs : PerformsAs files c s operation result after)
    (bare : operation = .start → c.started = false → c.map = none) : MapCovered result := by
  intro map laid
  cases performs with
  | start starts =>
      cases starts with
      | again => exact covered map laid
      | unserved fresh | empty fresh =>
          change c.map = some map at laid
          rw [bare rfl fresh] at laid
          cases laid
      | dropped => cases laid
      | served fresh =>
          rw [map_install] at laid
          change c.map = some map at laid
          rw [bare rfl fresh] at laid
          cases laid
  | loadMap loads =>
      cases loads with
      | unusable | dropped => cases laid
      | loaded =>
          cases laid
          exact Nat.le_max_right _ _
  | unloadMap | shutDown => cases laid
  | fetch label =>
      rw [fetch_snd_eq] at laid ⊢
      exact covered map laid

end Steps

theorem Reachable.mainCovered {c : Catalogue} (reached : Reachable files settings c) :
    MainCovered c := by
  refine reached.preserved files MainCovered ?_ ?_
  · intro main absent
    cases absent
  · intro c result operation s after reached performs covered
    exact covered.performed reached.coherent performs

variable (files) in
/-- Whenever a step of the run starts a catalogue that is not started, there is no map table. -/
def StartsBare (c : Catalogue) : List (Operation × σ) → Prop
  | [] => True
  | (operation, s) :: rest =>
      (operation = .start → c.started = false → c.map = none) ∧
        StartsBare (perform files operation c s).1 rest

theorem MapCovered.performAll {c : Catalogue} (covered : MapCovered c)
    {steps : List (Operation × σ)} (bare : StartsBare files c steps) : MapCovered (c.performAll files steps) := by
  induction steps generalizing c with
  | nil => exact covered
  | cons step rest ih =>
      rcases bare with ⟨first, later⟩
      exact ih (covered.performed (performsAs_perform files step.1 c step.2) first) later

/-- Starting over a map either drops the map, or keeps it and counts only the main table. -/
theorem start_over_map {c : Catalogue} (coherent : Coherent settings c) (fresh : c.started = false)
    (s : σ) :
    (c.start files s).1 = c.shutDown ∨
      (c.start files s).1.map = c.map ∧
        (c.start files s).1.maxLabelLen = (c.start files s).1.mainLabelLen := by
  have absent := coherent.main_eq_none fresh
  rcases exists_startsAs files c s with ⟨result, after, starts⟩
  rw [start_eq files starts]
  cases starts with
  | again started =>
      rw [fresh] at started
      cases started
  | unserved | empty => exact .inr ⟨rfl, by simp [mainLabelLen, absent]⟩
  | dropped => exact .inl rfl
  | served =>
      refine .inr ⟨map_install _ _ _, ?_⟩
      rw [maxLabelLen_install, mainLabelLen, main_install]
      rfl

/--
The reported length covers the main table after every run, and the map table
after every run that never starts over a map. Where a run does so, what is
reported is the longest label of the main table alone.
-/
theorem maxLabelLen_covers (files : FileService (StateM σ)) (settings : Settings) :
    (∀ c, Reachable files settings c → MainCovered c) ∧
    (∀ steps, StartsBare files { settings } steps →
      MapCovered (performAll files { settings } steps)) ∧
    ∀ c, Reachable files settings c → c.started = false → ∀ s,
      (c.start files s).1 = c.shutDown ∨
        (c.start files s).1.map = c.map ∧
          (c.start files s).1.maxLabelLen = (c.start files s).1.mainLabelLen := by
  refine ⟨fun c reached => reached.mainCovered, ?_, ?_⟩
  · intro steps bare
    have empty : MapCovered { settings } := fun map absent => by cases absent
    exact empty.performAll bare
  · intro c reached fresh s
    exact start_over_map reached.coherent fresh s

/-! ## A map that was there before -/

def longMap : Listing :=
  { entries := [{ label := "LONG", text := "map" }], maxLabelLen := 4, languageId := 0 }

theorem load_print_longMap :
    Plain.load (.ofBytes (Plain.print longMap.entries)) = .ok longMap := by
  rw [longMap, Plain.load_print_eq (by decide) (by decide) (by simp)]
  cbv

def withLongMap : Catalogue :=
  { settings := {}, map := some (.ofListing longMap), maxLabelLen := 4 }

/-- A map that is loaded before the main table may have longer labels than are reported. -/
theorem not_mapCovered_of_reachable :
    ¬∀ (files : FileService (StateM Unit)) (settings : Settings) (c : Catalogue),
      Reachable files settings c → MapCovered c := by
  intro always
  have there : printedFiles mainListing longMap "map" = some (Plain.print longMap.entries) := rfl
  have counted : Plain.count (.ofBytes (Plain.print longMap.entries)) = .ok 501 := by cbv
  have lay : (perform (settledFiles (printedFiles mainListing longMap)) (.loadMap "map")
      { settings := {} } ()).1 = withLongMap :=
    perform_loadMap_settled { settings := {} } there counted load_print_longMap
  have begin := perform_start_printed withLongMap rfl rfl longMap
  have covered := always (settledFiles (printedFiles mainListing longMap)) {} _
    (Reachable.new.performAll _ [(.loadMap "map", ()), (.start, ())])
  unfold performAll performAll performAll at covered
  rw [lay, begin] at covered
  have bound := covered (.ofListing longMap) (map_install _ _ _)
  rw [maxLabelLen_install] at bound
  exact absurd bound (by decide)

end Phrasebook.Catalogue

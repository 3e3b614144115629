import Mathlib
import Phrasebook.Proofs.Catalogue.Runs

/-!
# Starting a catalogue

Starting loads a whole table or leaves nothing of it behind, whatever the files
do between the two passes. `Ending` lists the ways in which it can end, each
with the whole of the catalogue and with the files that it leaves.
-/

namespace Phrasebook.Catalogue

variable {σ : Type} (files : FileService (StateM σ))

inductive Ending
  /-- No file can be used, or a compiled one promises no entries. -/
  | unserved
  /-- The file that was chosen cannot be opened again, or not be loaded. -/
  | dropped
  /-- The file that was chosen has been loaded. -/
  | served
  deriving DecidableEq, Repr

/-- From `c` and the files `s`, starting ends so with `result` and the files `left`. -/
def Ending.Holds (settings : Settings) (c : Catalogue) (s : σ) (result : Catalogue) (left : σ) :
    Ending → Prop
  | unserved =>
      (Chooses files settings s none left ∨
        Chooses files settings s
          (some { format := .compiled, path := settings.compiledPath, count := 0 }) left) ∧
      result =
        { settings
          started := true
          format := none
          main := none
          map := c.map
          missing := c.missing
          title := none
          maxLabelLen := 0 }
  | dropped =>
      (∃ chosen middle e, Chooses files settings s (some chosen) middle ∧ chosen.count ≠ 0 ∧
        secondPass files chosen.format chosen.path middle = (.error e, left)) ∧
      result = { settings }
  | served =>
      ∃ chosen middle listing, Chooses files settings s (some chosen) middle ∧
        chosen.count ≠ 0 ∧
        secondPass files chosen.format chosen.path middle = (.ok listing, left) ∧
        result =
          { settings
            started := true
            format := some chosen.format
            main := some (.ofListing listing)
            map := c.map
            missing :=
              if (result.find? settings.titleLabel).isSome then []
              else [missingPlaceholder settings.titleLabel]
            title := some (result.fetch settings.titleLabel).1.text
            maxLabelLen := (Table.ofListing listing).maxLabelLen }

variable {files} {settings : Settings} {c result : Catalogue} {s left : σ}

theorem Ending.Holds.eq_of_state {ending : Ending}
    (holds : ending.Holds files settings c s result left) :
    ending =
      if result.started then if result.main.isSome then served else unserved else dropped := by
  cases ending with
  | unserved =>
      rw [holds.2]
      rfl
  | dropped =>
      rw [holds.2]
      rfl
  | served =>
      rcases holds with ⟨_, _, _, -, -, -, whole⟩
      rw [whole]
      rfl

theorem exists_ending (coherent : Coherent settings c) (fresh : c.started = false) (s : σ) :
    ∃ ending : Ending,
      ending.Holds files settings c s (c.start files s).1 (c.start files s).2 := by
  obtain ⟨map, maxLabelLen, rfl⟩ : ∃ map maxLabelLen, c = { settings, map, maxLabelLen } :=
    ⟨_, _, coherent.eq_of_fresh fresh⟩
  have starts := startsAs_start files { settings, map, maxLabelLen } s
  generalize (start files _ s).1 = result, (start files _ s).2 = left at starts ⊢
  cases starts with
  | again started => cases started
  | unserved _ chooses => exact ⟨.unserved, .inl chooses, rfl⟩
  | empty _ chooses nothing =>
      rw [chooses.eq_of_count_eq_zero files nothing] at chooses
      exact ⟨.unserved, .inr chooses, rfl⟩
  | dropped _ chooses promised failed => exact ⟨.dropped, ⟨_, _, _, chooses, promised, failed⟩, rfl⟩
  | @served chosen _ _ listing _ chooses promised loaded =>
      refine ⟨.served, _, _, _, chooses, promised, loaded, ?_⟩
      have noted (c : Catalogue) (none : c.missing = []) (label : String) :
          (c.noteMissing label).missing = [missingPlaceholder label] := by
        rw [missing_noteMissing, none]
        rfl
      have whole := install_eq { settings, started := true, map } chosen.format (.ofListing listing)
      rw [noted _ rfl] at whole
      exact whole

/--
Starting a catalogue that is not started ends in exactly one of three ways, from
every state that a run can lead to and whatever the files answer.
-/
theorem start_ends (files : FileService (StateM σ)) (settings : Settings) (c : Catalogue)
    (reached : Reachable files settings c) (fresh : c.started = false) (s : σ) :
    ∃! ending : Ending,
      ending.Holds files settings c s (c.start files s).1 (c.start files s).2 := by
  rcases exists_ending reached.coherent fresh s with ⟨ending, holds⟩
  refine ⟨ending, holds, ?_⟩
  intro other otherHolds
  rw [otherHolds.eq_of_state, holds.eq_of_state]

def compiledOnly : Settings := { usePlain := false }

/-- What three openings deliver: an empty file for both passes of a map, then a compiled file. -/
def vanishing : FileService (StateM Nat) where
  openFile _ _ opened :=
    (match opened with
      | 0 | 1 => some (.ofBytes [])
      | 2 => some (.ofBytes (Compiled.print [{ label := "A" }] 0))
      | _ => none, opened + 1)

def withEmptyMap : Catalogue :=
  { settings := compiledOnly
    map := some (.ofListing { entries := [], maxLabelLen := 0, languageId := 0 }) }

/-- The compiled file is gone when it is to be loaded, and the map table goes with it. -/
theorem start_ends_vanished :
    Reachable vanishing compiledOnly withEmptyMap ∧ withEmptyMap.started = false ∧
      start vanishing withEmptyMap 2 = ({ settings := compiledOnly }, 4) ∧
      ∃! ending : Ending, ending.Holds vanishing compiledOnly withEmptyMap 2
        { settings := compiledOnly } 4 := by
  have mapped : (perform vanishing (.loadMap "") { settings := compiledOnly } 0).1 =
      withEmptyMap := by cbv
  have reached : Reachable vanishing compiledOnly withEmptyMap :=
    mapped ▸ .step .new (.loadMap "") 0
  have gone : start vanishing withEmptyMap 2 = ({ settings := compiledOnly }, 4) := by cbv
  have ends := start_ends vanishing compiledOnly withEmptyMap reached rfl 2
  rw [gone] at ends
  exact ⟨reached, rfl, gone, ends⟩

end Phrasebook.Catalogue

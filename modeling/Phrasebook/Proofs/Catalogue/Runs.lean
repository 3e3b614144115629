import Phrasebook.Proofs.Catalogue.Loading

/-!
# Runs of a catalogue

A client performs one operation after another on a catalogue that begins empty.
Between two operations the files may change in any way. What each operation
keeps, as `Coherent.performed` shows, every reachable catalogue has.
-/

namespace Phrasebook.Catalogue

/-- What changes a catalogue; all other functions only look at it. -/
inductive Operation
  | start
  | loadMap (path : String)
  | unloadMap
  | shutDown
  | fetch (label : String)
  deriving DecidableEq, Repr

variable {σ : Type} (files : FileService (StateM σ))

/-- The catalogue and the files after an operation. -/
def perform (operation : Operation) (c : Catalogue) (s : σ) : Catalogue × σ :=
  match operation with
  | .start => c.start files s
  | .loadMap path => ((c.loadMap files path s).1.2, (c.loadMap files path s).2)
  | .unloadMap => (c.unloadMap, s)
  | .shutDown => (c.shutDown, s)
  | .fetch label => ((c.fetch label).2, s)

/-- The ways in which an operation can go. -/
inductive PerformsAs (c : Catalogue) (s : σ) : Operation → Catalogue → σ → Prop
  | start {result : Catalogue} {after : σ} (starts : StartsAs files c s result after) :
      PerformsAs c s .start result after
  | loadMap {path : String} {told : Except LoadError Nat} {result : Catalogue} {after : σ}
      (loads : LoadsMapAs files path c s told result after) :
      PerformsAs c s (.loadMap path) result after
  | unloadMap : PerformsAs c s .unloadMap c.unloadMap s
  | shutDown : PerformsAs c s .shutDown c.shutDown s
  | fetch (label : String) : PerformsAs c s (.fetch label) (c.fetch label).2 s

theorem performsAs_perform (operation : Operation) (c : Catalogue) (s : σ) :
    PerformsAs files c s operation (perform files operation c s).1
      (perform files operation c s).2 := by
  cases operation with
  | start => exact .start (startsAs_start files c s)
  | loadMap path => exact .loadMap (loadsMapAs_loadMap files path c s)
  | unloadMap => exact .unloadMap
  | shutDown => exact .shutDown
  | fetch label => exact .fetch label

theorem perform_eq {operation : Operation} {c result : Catalogue} {s after : σ}
    (performs : PerformsAs files c s operation result after) :
    perform files operation c s = (result, after) := by
  cases performs with
  | start starts => exact start_eq files starts
  | loadMap loads =>
      have whole := loadMap_eq files loads
      simp only [perform, whole]
  | unloadMap | shutDown | fetch => rfl

/-- A run leads to the catalogue; each of its operations finds the files in a state of its own. -/
inductive Reachable (settings : Settings) : Catalogue → Prop
  | new : Reachable settings { settings }
  | step {c : Catalogue} (reached : Reachable settings c) (operation : Operation) (s : σ) :
      Reachable settings (perform files operation c s).1

/-- What holds at first, and is kept whichever way an operation goes, holds after every run. -/
theorem Reachable.preserved {settings : Settings} (holds : Catalogue → Prop)
    (new : holds { settings })
    (step : ∀ {c result : Catalogue} {operation : Operation} {s after : σ},
      Reachable files settings c → PerformsAs files c s operation result after → holds c →
      holds result)
    {c : Catalogue} (reached : Reachable files settings c) : holds c := by
  induction reached with
  | new => exact new
  | step reached operation s ih =>
      exact step reached (performsAs_perform files operation _ s) ih

/--
What one operation keeps. The format and the title are there exactly if the main
table is, for which the catalogue must have been started, and without which
nothing is missing.
-/
structure Coherent (settings : Settings) (c : Catalogue) : Prop where
  settings : c.settings = settings
  started : c.main ≠ none → c.started = true
  format : c.format.isSome = c.main.isSome
  title : c.title.isSome = c.main.isSome
  missing : c.main = none → c.missing = []

namespace Coherent

variable {settings : Settings} {c : Catalogue}

theorem new (settings : Settings) : Coherent settings { settings } where
  settings := rfl
  started := fun loaded => absurd rfl loaded
  format := rfl
  title := rfl
  missing := fun _ => rfl

theorem of_eq {other : Catalogue} (coherent : Coherent settings c)
    (same : other = { c with map := other.map, maxLabelLen := other.maxLabelLen }) :
    Coherent settings other := by
  rw [same]
  exact
    { settings := coherent.settings
      started := coherent.started
      format := coherent.format
      title := coherent.title
      missing := coherent.missing }

theorem install (coherent : Coherent settings c) (format : Format) (table : Table)
    (started : c.started = true) : Coherent settings (c.install format table) := by
  rw [install_eq]
  exact
    { settings := coherent.settings
      started := fun _ => started
      format := rfl
      title := rfl
      missing := fun absent => by cases absent }

theorem begun (coherent : Coherent settings c) :
    Coherent settings { c with started := true, maxLabelLen := 0 } where
  settings := coherent.settings
  started := fun _ => rfl
  format := coherent.format
  title := coherent.title
  missing := coherent.missing

theorem main_eq_none (coherent : Coherent settings c) (fresh : c.started = false) :
    c.main = none := by
  cases main : c.main with
  | none => rfl
  | some table =>
      rw [coherent.started (by simp [main])] at fresh
      cases fresh

theorem eq_of_absent (coherent : Coherent settings c) (absent : c.main = none) :
    c = { settings, started := c.started, map := c.map, maxLabelLen := c.maxLabelLen } := by
  have format : c.format = none := by simpa [absent] using coherent.format
  have title : c.title = none := by simpa [absent] using coherent.title
  have missing := coherent.missing absent
  have same := coherent.settings
  rcases c with ⟨_, _, _, _, _, _, _, _⟩
  simp_all

theorem eq_of_fresh (coherent : Coherent settings c) (fresh : c.started = false) :
    c = { settings, map := c.map, maxLabelLen := c.maxLabelLen } := by
  have whole := coherent.eq_of_absent (coherent.main_eq_none fresh)
  rwa [fresh] at whole

theorem shutDown_eq (coherent : Coherent settings c) : c.shutDown = { settings } := by
  rw [Catalogue.shutDown, coherent.settings]

theorem shutDown (coherent : Coherent settings c) : Coherent settings c.shutDown := by
  rw [coherent.shutDown_eq]
  exact .new settings

theorem fetch (coherent : Coherent settings c) (label : String) :
    Coherent settings (c.fetch label).2 := by
  cases main : c.main with
  | none =>
      have unchanged : (c.fetch label).2 = c := by rw [Catalogue.fetch, main]
      rwa [unchanged]
  | some table =>
      rw [fetch_snd_eq]
      exact
        { settings := coherent.settings
          started := coherent.started
          format := coherent.format
          title := coherent.title
          missing := fun absent => by
            change c.main = none at absent
            rw [main] at absent
            cases absent }

theorem performed {operation : Operation} {result : Catalogue} {s after : σ}
    (coherent : Coherent settings c)
    (performs : PerformsAs files c s operation result after) : Coherent settings result := by
  cases performs with
  | start starts =>
      cases starts with
      | again => exact coherent
      | unserved | empty => exact coherent.begun
      | dropped => exact coherent.shutDown
      | served => exact coherent.begun.install _ _ rfl
  | loadMap loads =>
      cases loads with
      | unusable | dropped | loaded => exact coherent.of_eq rfl
  | unloadMap => exact coherent.of_eq rfl
  | shutDown => exact coherent.shutDown
  | fetch label => exact coherent.fetch label

end Coherent

theorem Reachable.coherent {settings : Settings} {c : Catalogue}
    (reached : Reachable files settings c) : Coherent settings c :=
  reached.preserved files (Coherent settings) (.new settings) fun _ performs coherent =>
    coherent.performed files performs

/-! ## Runs step by step -/

/-- The catalogue after these operations; the files before each are given with it. -/
def performAll (c : Catalogue) : List (Operation × σ) → Catalogue
  | [] => c
  | (operation, s) :: rest => performAll (perform files operation c s).1 rest

theorem performAll_append (c : Catalogue) (steps more : List (Operation × σ)) :
    c.performAll files (steps ++ more) = (c.performAll files steps).performAll files more := by
  induction steps generalizing c with
  | nil => rfl
  | cons step rest ih => exact ih _

theorem Reachable.performAll {settings : Settings} {c : Catalogue}
    (reached : Reachable files settings c) (steps : List (Operation × σ)) :
    Reachable files settings (c.performAll files steps) := by
  induction steps generalizing c with
  | nil => exact reached
  | cons step rest ih => exact ih (reached.step step.1 step.2)

end Phrasebook.Catalogue

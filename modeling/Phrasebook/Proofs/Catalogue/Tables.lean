import Phrasebook.Proofs.Catalogue.Runs
import Phrasebook.Proofs.LoadedTable

/-!
# The tables of a reachable catalogue

Tables come from files and are never changed: whatever holds of the listing of
every file that is loaded holds of the main table and of the map table after
every run. So the labels of each table are distinct.
-/

namespace Phrasebook

namespace Catalogue

variable {σ : Type} (files : FileService (StateM σ))

/-- Starting with the files in this state chooses a file that promises entries, and loads it. -/
def Serves (settings : Settings) (s : σ) (chosen : Candidate) (listing : Listing) : Prop :=
  ∃ middle after, Chooses files settings s (some chosen) middle ∧ chosen.count ≠ 0 ∧
    secondPass files chosen.format chosen.path middle = (.ok listing, after)

theorem start_of_serves {settings : Settings} {c : Catalogue} {s : σ} {chosen : Candidate}
    {listing : Listing} (serves : Serves files settings s chosen listing)
    (same : c.settings = settings) (fresh : c.started = false) :
    (c.start files s).1 =
      install { c with started := true, maxLabelLen := 0 } chosen.format (.ofListing listing) := by
  rcases serves with ⟨middle, after, chooses, promised, ran⟩
  rw [← same] at chooses
  rw [start_eq files (.served fresh chooses promised ran)]

namespace Reachable

variable {files} {settings : Settings} {c : Catalogue}

theorem main_of_serves (property : Format → Table → Prop)
    (each : ∀ {s : σ} {chosen : Candidate} {listing : Listing},
      Serves files settings s chosen listing → property chosen.format (.ofListing listing))
    (reached : Reachable files settings c) :
    ∀ main, c.main = some main → ∃ format, c.format = some format ∧ property format main := by
  refine reached.preserved files
    (fun c => ∀ main, c.main = some main →
      ∃ format, c.format = some format ∧ property format main) ?_ ?_
  · intro main absent
    cases absent
  · intro c result operation s after reached performs ih main loaded
    cases performs with
    | start starts =>
        cases starts with
        | again | unserved | empty => exact ih main loaded
        | dropped => cases loaded
        | served fresh chooses promised ran =>
            rw [main_install] at loaded
            cases loaded
            rw [reached.coherent.settings] at chooses
            exact ⟨_, format_install .., each ⟨_, _, chooses, promised, ran⟩⟩
    | loadMap loads =>
        cases loads with
        | unusable | dropped | loaded => exact ih main loaded
    | unloadMap => exact ih main loaded
    | shutDown => cases loaded
    | fetch label =>
        rw [fetch_snd_eq] at loaded ⊢
        exact ih main loaded

theorem map_of_loads (property : Table → Prop)
    (each : ∀ {path : String} {s after : σ} {listing : Listing},
      secondPass files .plain path s = (.ok listing, after) → property (.ofListing listing))
    (reached : Reachable files settings c) : ∀ map, c.map = some map → property map := by
  refine reached.preserved files (fun c => ∀ map, c.map = some map → property map) ?_ ?_
  · intro map absent
    cases absent
  · intro c result operation s after reached performs ih map laid
    cases performs with
    | start starts =>
        cases starts with
        | again | unserved | empty => exact ih map laid
        | dropped => cases laid
        | served =>
            rw [map_install] at laid
            exact ih map laid
    | loadMap loads =>
        cases loads with
        | unusable | dropped => cases laid
        | loaded promised ran =>
            cases laid
            exact each ran
    | unloadMap | shutDown => cases laid
    | fetch label =>
        rw [fetch_snd_eq] at laid
        exact ih map laid

theorem distinctLabels_main (reached : Reachable files settings c) :
    ∀ main, c.main = some main → DistinctLabels main.entries.toList := by
  have each {s : σ} {chosen : Candidate} {listing : Listing}
      (serves : Serves files settings s chosen listing) :
      DistinctLabels (Table.ofListing listing).entries.toList := by
    rcases serves with ⟨middle, after, -, -, ran⟩
    rcases ok_of_readFile files ran with ⟨source, -, read⟩
    exact Format.distinctLabels_of_load read
  intro main loaded
  rcases reached.main_of_serves (fun _ table => DistinctLabels table.entries.toList) each main
    loaded with ⟨-, -, distinct⟩
  exact distinct

theorem distinctLabels_map (reached : Reachable files settings c) :
    ∀ map, c.map = some map → DistinctLabels map.entries.toList := by
  refine reached.map_of_loads (fun table => DistinctLabels table.entries.toList) ?_
  intro path s after listing ran
  rcases ok_of_readFile files ran with ⟨source, -, read⟩
  exact Format.distinctLabels_of_load read

end Reachable

end Catalogue

end Phrasebook

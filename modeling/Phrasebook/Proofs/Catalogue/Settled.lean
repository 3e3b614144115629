import Phrasebook.Proofs.Catalogue.Runs
import Phrasebook.Proofs.Plain.RoundTrip

/-!
# Files that stay as they are

Over files that never change both passes read the same bytes, so that what a
step leaves can be told from the contents of the one path that it opens.
-/

namespace Phrasebook.Catalogue

/-- Each path holds these bytes, if any, whenever it is opened. -/
def settledFiles (contents : String → Option (List UInt8)) : FileService (StateM Unit) where
  openFile path _ s := ((contents path).map .ofBytes, s)

section Settled

variable {contents : String → Option (List UInt8)} {path : String} {bytes : List UInt8}

theorem openFile_settledFiles (there : contents path = some bytes) (mode : OpenMode) :
    (settledFiles contents).openFile path mode () = (some (.ofBytes bytes), ()) := by
  simp [settledFiles, there]

variable (c : Catalogue) {count : Nat} {listing : Listing}

theorem perform_start_settled (fresh : c.started = false) (on : c.settings.usePlain = true)
    (there : contents c.settings.plainPath = some bytes)
    (counted : Plain.count (.ofBytes bytes) = .ok count)
    (loaded : Plain.load (.ofBytes bytes) = .ok listing) :
    (perform (settledFiles contents) .start c ()).1 =
      install { c with started := true, maxLabelLen := 0 } .plain (.ofListing listing) := by
  have promised : count ≠ 0 :=
    Nat.ne_of_gt (Nat.lt_of_lt_of_le (by decide) (countMargin_le_of_count counted))
  have first := readFile_of_delivered _ (openFile_settledFiles there .text) counted
  have second := readFile_of_delivered _ (openFile_settledFiles there .text) loaded
  rw [perform_eq _ (.start (.served fresh (.plain on first) promised second))]

theorem perform_loadMap_settled (there : contents path = some bytes)
    (counted : Plain.count (.ofBytes bytes) = .ok count)
    (loaded : Plain.load (.ofBytes bytes) = .ok listing) :
    (perform (settledFiles contents) (.loadMap path) c ()).1 =
      { c with
        map := some (.ofListing listing)
        maxLabelLen := max c.maxLabelLen listing.maxLabelLen } := by
  have first := readFile_of_delivered _ (openFile_settledFiles there .text) counted
  have second := readFile_of_delivered _ (openFile_settledFiles there .text) loaded
  rw [perform_eq _ (.loadMap (.loaded first second))]
  rfl

end Settled

/-! ## A main table and a map table -/

/-- Both tables as plain files: that of the map under `map`, the other under every other path. -/
def printedFiles (main map : Listing) (path : String) : Option (List UInt8) :=
  some (Plain.print (if path = "map" then map else main).entries)

def mainListing : Listing :=
  { entries := [{ label := "A", text := "main" }], maxLabelLen := 1, languageId := 0 }

theorem load_print_mainListing :
    Plain.load (.ofBytes (Plain.print mainListing.entries)) = .ok mainListing := by
  rw [mainListing, Plain.load_print_eq (by decide) (by decide) (by simp)]
  cbv

theorem perform_start_printed (c : Catalogue) (settings : c.settings = {})
    (fresh : c.started = false) (map : Listing) :
    (perform (settledFiles (printedFiles mainListing map)) .start c ()).1 =
      install { c with started := true, maxLabelLen := 0 } .plain (.ofListing mainListing) := by
  have path : c.settings.plainPath = "data/Generals.str" := by
    rw [settings]
    cbv
  have there : printedFiles mainListing map c.settings.plainPath =
      some (Plain.print mainListing.entries) := by
    rw [path]
    rfl
  have counted : Plain.count (.ofBytes (Plain.print mainListing.entries)) = .ok 501 := by cbv
  exact perform_start_settled c fresh (by rw [settings]) there counted load_print_mainListing

def withMap (map : Listing) : Catalogue :=
  performAll (settledFiles (printedFiles mainListing map)) { settings := {} }
    [(.start, ()), (.loadMap "map", ())]

theorem reachable_withMap (map : Listing) :
    Reachable (settledFiles (printedFiles mainListing map)) {} (withMap map) :=
  Reachable.new.performAll _ _

theorem tables_withMap {map : Listing} {count : Nat}
    (counted : Plain.count (.ofBytes (Plain.print map.entries)) = .ok count)
    (loaded : Plain.load (.ofBytes (Plain.print map.entries)) = .ok map) :
    (withMap map).main = some (.ofListing mainListing) ∧
      (withMap map).map = some (.ofListing map) := by
  have there : printedFiles mainListing map "map" = some (Plain.print map.entries) := rfl
  have begin := perform_start_printed { settings := {} } rfl rfl map
  have lay (c : Catalogue) := perform_loadMap_settled c there counted loaded
  unfold withMap performAll performAll performAll
  rw [lay, begin]
  exact ⟨main_install .., rfl⟩

end Phrasebook.Catalogue

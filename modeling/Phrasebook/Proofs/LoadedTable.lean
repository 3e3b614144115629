import Phrasebook.Format
import Phrasebook.Proofs.Compiled.Grammar
import Phrasebook.Proofs.Lookup
import Phrasebook.Proofs.Plain.Loaded

/-!
# The table of a loaded file

Both loaders end alike, with the listing of the blocks that were read. What a
table promises follows from that alone: the labels are distinct, so that the
bisection of the index finds what a search from the front finds, and the longest
label is among the entries that were kept.
-/

namespace Phrasebook

open Bytes

namespace Format

variable {format : Format} {source : Source} {listing : Listing}

theorem exists_blocks_of_load (loaded : format.load source = .ok listing) :
    ∃ blocks languageId, listing = .ofBlocks blocks languageId := by
  cases format with
  | plain =>
      obtain ⟨blocks, -, whole⟩ := Plain.load_eq_ok_iff.mp loaded
      exact ⟨_, _, whole⟩
  | compiled =>
      obtain ⟨_, _, _, _, -, -, -, whole⟩ := (Compiled.load_eq_ok_iff _ _).mp loaded
      exact ⟨_, _, whole⟩

theorem distinctLabels_of_load (loaded : format.load source = .ok listing) :
    DistinctLabels listing.entries := by
  obtain ⟨blocks, languageId, rfl⟩ := exists_blocks_of_load loaded
  exact distinctLabels_keepFirst blocks

theorem maxLabelLen_of_load (loaded : format.load source = .ok listing) :
    listing.maxLabelLen = (listing.entries.map fun e => e.label.length).max?.getD 0 := by
  obtain ⟨blocks, languageId, rfl⟩ := exists_blocks_of_load loaded
  exact Listing.maxLabelLen_ofBlocks blocks languageId

/--
In the table of a file every text is looked up as by a search through the
entries from the front. No two entries have the same label, and the length that
is told is that of the longest label among them.
-/
theorem table_of_load (loaded : format.load source = .ok listing) :
    DistinctLabels listing.entries ∧
      listing.maxLabelLen = (listing.entries.map fun e => e.label.length).max?.getD 0 ∧
      ∀ label, (Table.ofListing listing).get? label =
        listing.entries.find? fun e => Label.same e.label label := by
  have distinct := distinctLabels_of_load loaded
  exact ⟨distinct, maxLabelLen_of_load loaded,
    @Table.get?_eq_entryUnder? (.ofListing listing) distinct⟩

/-- Of the labels `ab` and `aB` the second one is dropped. -/
def repeatedFile : List UInt8 :=
  Compiled.print [{ label := "ab", text := "c" }, { label := "aB" }, { label := "É" }] 1

/-- The case of ASCII letters does not count, that of other letters does. -/
theorem table_of_load_repeatedFile :
    let listing : Listing :=
      { entries := [{ label := "ab", text := "c" }, { label := "É" }]
        maxLabelLen := 2
        languageId := 1 }
    Format.compiled.load (.ofBytes repeatedFile) = .ok listing ∧
      (Table.ofListing listing).get? "AB" = some { label := "ab", text := "c" } ∧
      (Table.ofListing listing).get? "é" = none := by
  intro listing
  have loaded : Format.compiled.load (.ofBytes repeatedFile) = .ok listing := by cbv
  obtain ⟨-, -, found⟩ := table_of_load loaded
  exact ⟨loaded, by rw [found]; decide, by rw [found]; decide⟩

end Format

end Phrasebook

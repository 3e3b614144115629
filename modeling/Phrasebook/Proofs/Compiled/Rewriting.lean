import Mathlib
import Phrasebook.Proofs.Compiled.RoundTrip
import Phrasebook.Proofs.Text.Squeezed

/-!
# Writing a compiled file again

What has been loaded from a compiled file is in the form that a compiled file
keeps: labels and cues in single bytes, phrases in normal spacing and without
the characters that end a stored text, lengths that fit their words, and labels
that are distinct. Writing it and loading it again therefore gives the same
listing, whatever the first file looked like.
-/

namespace Phrasebook.Compiled

open Bytes

/-! ## Loaded entries -/

theorem settled_meaning (block : Block) : Settled block.meaning := by
  rcases block with ⟨label, variants⟩
  cases variants with
  | nil =>
      exact
        { label := fun _ member => Text.isLatin_of_mem_widen member
          cue := fun _ member => absurd member (by simp [Block.meaning])
          spacing := rfl
          storable := fun _ member => absurd member (by simp [Block.meaning]) }
  | cons first others =>
      rcases first with ⟨units, cue⟩
      refine
        { label := fun _ member => Text.isLatin_of_mem_widen member
          cue := ?_
          spacing := Text.squeeze_squeeze _
          storable := fun _ member =>
            Text.isStorable_of_mem_decodeStored (Text.mem_of_mem_squeeze member) }
      intro c member
      cases cue with
      | none => simp [Block.meaning] at member
      | some cue => exact @Text.isLatin_of_mem_widen cue c member

theorem length_encodeUnits_squeeze_le (text : String) :
    (Text.encodeUnits (Text.squeeze text)).length ≤ (Text.encodeUnits text).length := by
  rw [Text.encodeUnits, Text.encodeUnits, Text.toList_squeeze]
  exact ((Text.squeezeChars_sublist text.toList).flatMap Text.charUnits).length_le

/-- The words that stored the lengths of a variant can store them again. -/
theorem VariantForm.fits {bytes : List UInt8} {v : Variant} (form : VariantForm bytes v) :
    v.Fits := by
  have enough {raw : List UInt8} {count : UInt32} (size : raw.length = 2 * count.toNat) :
      (Text.unitsOfBytes raw).length < UInt32.size := by
    have units := Text.length_unitsOfBytes_le raw
    have bound := count.toNat_lt_size
    omega
  cases form with
  | silent count size =>
      refine ⟨enough size, ?_⟩
      intro cue present
      cases present
  | spoken count length size cueSize =>
      refine ⟨enough size, ?_⟩
      intro cue present
      cases present
      rw [cueSize]
      exact length.toNat_lt_size

theorem forall_mem_of_sequence {form : Form α} {property : α → Prop}
    (each : ∀ bytes a, form bytes a → property a) {bytes : List UInt8} {values : List α}
    (sequence : Sequence form bytes values) : ∀ a ∈ values, property a := by
  induction sequence with
  | nil => exact fun _ member => absurd member List.not_mem_nil
  | cons head _ ih => exact List.forall_mem_cons.mpr ⟨each _ _ head, ih⟩

theorem storable_meaning {bytes : List UInt8} {block : Block} (form : BlockForm bytes block) :
    Storable block.meaning := by
  cases form with
  | @mk label body variants count length labelSize _ each =>
      have labelFits : (Text.widen label).length < UInt32.size := by
        rw [Text.length_widen, labelSize]
        exact length.toNat_lt_size
      have fits := forall_mem_of_sequence (fun _ _ form => VariantForm.fits form) each
      cases variants with
      | nil =>
          have nothing : (0 : Nat) < UInt32.size := by decide
          exact ⟨labelFits, nothing, nothing⟩
      | cons first others =>
          rcases fits first List.mem_cons_self with ⟨unitsFit, cueFits⟩
          have textFits : (Text.encodeUnits
              (Text.squeeze (Text.decodeStored first.units))).length < UInt32.size := by
            have squeezed := length_encodeUnits_squeeze_le (Text.decodeStored first.units)
            have stored := Text.length_encodeUnits_decodeStored_le first.units
            omega
          refine ⟨labelFits, textFits, ?_⟩
          cases named : first.cue with
          | none => simp [Block.meaning, named, UInt32.size]
          | some cue => simpa [Block.meaning, named] using cueFits cue named

/-! ## Loaded files -/

section Loaded

variable {source : Source} {listing : Listing} (loaded : load source = .ok listing)

include loaded

theorem blocks_of_load :
    ∃ body blocks, Sequence BlockForm body blocks ∧
      listing.entries = keepFirst (blocks.map Block.meaning) ∧
      listing.maxLabelLen = (listing.entries.map fun e => e.label.length).max?.getD 0 := by
  rcases (load_eq_ok_iff _ _).mp loaded with ⟨header, body, blocks, tail, -, each, -, rfl⟩
  have same : blocks.map Block.entry = blocks.map Block.meaning :=
    List.map_congr_left fun block _ => block.entry_eq_meaning
  exact ⟨body, blocks, each, congrArg keepFirst same, Listing.maxLabelLen_ofBlocks _ _⟩

theorem settled_of_load : ∀ e ∈ listing.entries, Settled e := by
  rcases blocks_of_load loaded with ⟨body, blocks, -, entries, -⟩
  rw [entries]
  intro e kept
  rcases List.mem_map.mp (mem_of_mem_keepFirst kept) with ⟨block, -, rfl⟩
  exact settled_meaning block

theorem storable_of_load : ∀ e ∈ listing.entries, Storable e := by
  rcases blocks_of_load loaded with ⟨body, blocks, each, entries, -⟩
  rw [entries]
  intro e kept
  rcases List.mem_map.mp (mem_of_mem_keepFirst kept) with ⟨block, among, rfl⟩
  exact forall_mem_of_sequence (fun _ _ form => storable_meaning form) each block among

theorem distinctLabels_of_load : DistinctLabels listing.entries := by
  rcases blocks_of_load loaded with ⟨body, blocks, -, entries, -⟩
  rw [entries]
  exact distinctLabels_keepFirst _

theorem load_print_of_load :
    load (.ofBytes (print listing.entries listing.languageId)) = .ok listing := by
  rcases blocks_of_load loaded with ⟨body, blocks, -, -, longestLabel⟩
  rw [load_print_eq (storable_of_load loaded),
    unrepeated_readBack (settled_of_load loaded) (distinctLabels_of_load loaded),
    ← longestLabel]

end Loaded

/-- The file as this library writes it: what loading it gives, written again. -/
def rewrite (data : List UInt8) : Except LoadError (List UInt8) :=
  (load (.ofBytes data)).map fun listing => print listing.entries listing.languageId

/--
A file that has been loaded and written again is loaded as the same listing, so
that writing it once more gives the same bytes.
-/
theorem load_rewrite (data : List UInt8) (listing : Listing)
    (loaded : load (.ofBytes data) = .ok listing) :
    load (.ofBytes (print listing.entries listing.languageId)) = .ok listing ∧
      rewrite data = .ok (print listing.entries listing.languageId) ∧
      rewrite (print listing.entries listing.languageId) =
        .ok (print listing.entries listing.languageId) := by
  have again := load_print_of_load loaded
  refine ⟨again, ?_, ?_⟩
  · rw [rewrite, loaded]
    rfl
  · rw [rewrite, again]
    rfl

/-- A file of the first version with a lone surrogate, spare spaces and a label that comes twice. -/
theorem load_rewrite_unpaired_and_repeated :
    load (.ofBytes
        (Header.toBytes { version := 1, labelCount := 9, stringCount := 9, languageId := 7 } ++
          [{ label := [0x41]
             variants :=
               [{ units := [0x20, 0xD800, 0x42, 0x20, 0x20, 0x43, 0x20].map Text.invertUnit
                  cue := some [0xE9] }] },
           { label := [0x61], variants := [] }].flatMap Block.toBytes ++ [0x20, 0x4C])) =
      .ok { entries := [{ label := "A", text := "\uFFFDB C", cue := "é" }], maxLabelLen := 1,
            languageId := 0 } ∧
    load (.ofBytes (print [{ label := "A", text := "\uFFFDB C", cue := "é" }] 0)) =
      .ok { entries := [{ label := "A", text := "\uFFFDB C", cue := "é" }], maxLabelLen := 1,
            languageId := 0 } := by
  refine ⟨?loaded, (load_rewrite _ _ ?loaded).1⟩
  rw [load_toBytes_append _ ?fits (.inl (by decide))]
  · cbv
  case fits => simp [Block.Fits, Variant.Fits, UInt32.size]

end Phrasebook.Compiled

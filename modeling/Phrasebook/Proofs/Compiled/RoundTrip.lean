import Mathlib
import Phrasebook.Compiled.Printer
import Phrasebook.Proofs.Compiled.Grammar
import Phrasebook.Proofs.Text.SingleByte
import Phrasebook.Proofs.Text.StoredUnits

/-!
# Writing and loading a compiled file

A block that is written has the form of a block, as long as each of its lengths
fits the word that stores it. Loading what has been written therefore gives the
entries back, up to what single bytes and stored units cannot hold.
-/

namespace Phrasebook.Compiled

open Bytes

/-! ## Written blocks -/

def Variant.Fits (v : Variant) : Prop :=
  v.units.length < UInt32.size ∧ ∀ cue ∈ v.cue, cue.length < UInt32.size

/-- The lengths of the block and of its variants fit the words that store them. -/
def Block.Fits (block : Block) : Prop :=
  block.label.length < UInt32.size ∧ block.variants.length < UInt32.size ∧ ∀ v ∈ block.variants, v.Fits

theorem toNat_length {n : Nat} (fits : n < UInt32.size) : (UInt32.ofNat n).toNat = n :=
  UInt32.toNat_ofNat_of_lt' fits

theorem variantForm_toBytes {v : Variant} (fits : v.Fits) : VariantForm v.toBytes v := by
  rcases v with ⟨units, cue⟩
  rcases fits with ⟨unitsFit, cueFits⟩
  have size : (Text.bytesOfUnits units).length = 2 * (UInt32.ofNat units.length).toNat := by
    rw [toNat_length unitsFit, Text.length_bytesOfUnits]
  have restored := Text.unitsOfBytes_bytesOfUnits units
  cases cue with
  | none =>
      have form := VariantForm.silent _ size
      rwa [restored] at form
  | some cue =>
      have cueSize : cue.length = (UInt32.ofNat cue.length).toNat :=
        (toNat_length (cueFits cue rfl)).symm
      have form := VariantForm.spoken _ _ size cueSize
      rwa [restored] at form

theorem sequence_flatMap {form : Form α} {print : α → List UInt8} {values : List α}
    (each : ∀ a ∈ values, form (print a) a) : Sequence form (values.flatMap print) values := by
  induction values with
  | nil => exact .nil
  | cons a rest ih =>
      rw [List.flatMap_cons]
      exact .cons (each a List.mem_cons_self)
        (ih fun b member => each b (List.mem_cons_of_mem a member))

theorem blockForm_toBytes {block : Block} (fits : block.Fits) : BlockForm block.toBytes block := by
  rcases block with ⟨label, variants⟩
  rcases fits with ⟨labelFits, countFits, variantsFit⟩
  exact BlockForm.mk _ _ (toNat_length labelFits).symm (toNat_length countFits).symm
    (sequence_flatMap fun v member => variantForm_toBytes (variantsFit v member))

theorem load_toBytes_append (header : Header) {blocks : List Block}
    (fits : ∀ block ∈ blocks, block.Fits) {tail : List UInt8}
    (stop : tail.length < markSize ∨ tail.take markSize ≠ labelMark) :
    load (.ofBytes (header.toBytes ++ blocks.flatMap Block.toBytes ++ tail)) =
      .ok (.ofBlocks (blocks.map Block.entry) header.effectiveLanguageId) := by
  have each : Sequence BlockForm (blocks.flatMap Block.toBytes) blocks :=
    sequence_flatMap fun block member => blockForm_toBytes (fits block member)
  exact (load_eq_ok_iff _ _).mpr
    ⟨header, _, blocks, .ofBytes tail, rfl, each, (noBlock_ofBytes tail).mpr stop, rfl⟩

/-! ## Written entries -/

/-- The lengths of the entry, its phrase measured in units, fit the words that store them. -/
def Storable (e : Entry) : Prop :=
  e.label.length < UInt32.size ∧ (Text.encodeUnits e.text).length < UInt32.size ∧ e.cue.length < UInt32.size

def readBack (e : Entry) : Entry where
  label := Text.singleByte e.label
  text := Text.squeeze (Text.storablePart e.text)
  cue := Text.singleByte e.cue

theorem fits_ofEntry {e : Entry} (storable : Storable e) : (Block.ofEntry e).Fits := by
  rcases storable with ⟨label, text, cue⟩
  refine ⟨by simpa [Block.ofEntry] using label, by simp [Block.ofEntry, UInt32.size], ?_⟩
  intro v member
  rw [List.mem_singleton.mp member]
  refine ⟨by simpa [Text.encodeStored] using text, ?_⟩
  intro bytes present
  by_cases silent : e.cue = ""
  · simp [silent] at present
  · have written : Text.narrow e.cue = bytes := by simpa [silent] using present
    rw [← written, Text.length_narrow]
    exact cue

theorem meaning_ofEntry (e : Entry) : (Block.ofEntry e).meaning = readBack e := by
  by_cases silent : e.cue = ""
  · have nothing : Text.singleByte "" = "" := String.map_eq_empty.mpr rfl
    simp [Block.ofEntry, Block.meaning, readBack, Text.decodeStored_encodeStored, silent, nothing]
  · simp [Block.ofEntry, Block.meaning, readBack, Text.decodeStored_encodeStored, silent]

theorem load_print_eq {entries : List Entry} (storable : ∀ e ∈ entries, Storable e)
    (languageId : UInt32) :
    load (.ofBytes (print entries languageId)) =
      .ok
        { entries := unrepeated (entries.map readBack)
          maxLabelLen := (entries.map fun e => e.label.length).max?.getD 0
          languageId } := by
  have fits : ∀ block ∈ entries.map Block.ofEntry, block.Fits := by
    intro block member
    rcases List.mem_map.mp member with ⟨e, among, rfl⟩
    exact fits_ofEntry (storable e among)
  have whole : print entries languageId = (headerFor entries.length languageId).toBytes ++
      (entries.map Block.ofEntry).flatMap Block.toBytes ++ [] := by
    rw [List.append_nil, List.flatMap_map]
    rfl
  have meanings : (entries.map Block.ofEntry).map Block.meaning = entries.map readBack := by
    rw [List.map_map]
    exact List.map_congr_left fun e _ => meaning_ofEntry e
  have lengths : ((entries.map Block.ofEntry).map fun block => block.label.length) =
      entries.map fun e => e.label.length := by
    rw [List.map_map]
    exact List.map_congr_left fun e _ => Text.length_narrow e.label
  rw [whole, load_toBytes_append _ fits (.inl (by decide)), ofBlocks_entry, meanings, lengths]
  rfl

/-! ## Entries that come back unchanged -/

/-- Label, phrase and cue are already as they are read back. -/
structure Settled (e : Entry) : Prop where
  label : ∀ c ∈ e.label.toList, Text.isLatin c = true
  cue : ∀ c ∈ e.cue.toList, Text.isLatin c = true
  spacing : Text.squeeze e.text = e.text
  storable : ∀ c ∈ e.text.toList, Text.isStorable c = true

theorem readBack_eq_self {e : Entry} (settled : Settled e) : readBack e = e := by
  have stored : Text.storablePart e.text = e.text := by
    rw [Text.storablePart, List.takeWhile_eq_self_iff.mpr settled.storable, String.ofList_toList]
  rw [readBack, Text.singleByte_eq_self settled.label, Text.singleByte_eq_self settled.cue, stored,
    settled.spacing]

theorem unrepeated_readBack {entries : List Entry} (settled : ∀ e ∈ entries, Settled e)
    (distinct : DistinctLabels entries) : unrepeated (entries.map readBack) = entries := by
  have same : entries.map readBack = entries.map id :=
    List.map_congr_left fun e member => readBack_eq_self (settled e member)
  rw [same, List.map_id, ← keepFirst_eq_unrepeated, keepFirst_eq_self distinct]

/--
Loading a written file gives each entry as it is read back, unless an earlier
one is read back under the same label. Entries that are settled and have
distinct labels come back as they were.
-/
theorem load_print_narrowed (entries : List Entry) (languageId : UInt32)
    (storable : ∀ e ∈ entries, Storable e) :
    load (.ofBytes (print entries languageId)) =
        .ok
          { entries := unrepeated (entries.map fun e =>
              { label := Text.singleByte e.label
                text := Text.squeeze (Text.storablePart e.text)
                cue := Text.singleByte e.cue })
            maxLabelLen := (entries.map fun e => e.label.length).max?.getD 0
            languageId } ∧
      ((∀ e ∈ entries, Settled e) → DistinctLabels entries →
        (load (.ofBytes (print entries languageId))).map Listing.entries = .ok entries) := by
  have loaded := load_print_eq storable languageId
  refine ⟨loaded, ?_⟩
  intro settled distinct
  rw [loaded, unrepeated_readBack settled distinct]
  rfl

/-- Two labels that narrow to one, a phrase cut at U+0000, and a file that comes back whole. -/
theorem load_print_narrowed_clashing_and_settled :
    load (.ofBytes (print
        [{ label := "é世", text := "a  b\x00c", cue := "世" }, { label := "é?", text := "lost" }]
        7)) =
      .ok { entries := [{ label := "é?", text := "a b", cue := "?" }], maxLabelLen := 2,
            languageId := 7 } ∧
    (load (.ofBytes (print [{ label := "A", text := "世 😀" }, { label := "b", text := "" }]
        0))).map Listing.entries =
      .ok [{ label := "A", text := "世 😀" }, { label := "b", text := "" }] := by
  constructor
  · rw [(load_print_narrowed _ 7 ?storable).1]
    · have kept : unrepeated
          [{ label := Text.singleByte "é世"
             text := Text.squeeze (Text.storablePart "a  b\x00c")
             cue := Text.singleByte "世" },
           { label := Text.singleByte "é?"
             text := Text.squeeze (Text.storablePart "lost")
             cue := Text.singleByte "" }] =
          [{ label := "é?", text := "a b", cue := "?" }] := by
        cbv
      simp only [List.map_cons, List.map_nil, kept]
      rfl
    case storable =>
      simp only [List.forall_mem_cons, Storable]
      decide
  · refine (load_print_narrowed _ 0 ?storable).2 ?settled ?distinct
    case storable =>
      simp only [List.forall_mem_cons, Storable]
      decide
    case settled =>
      intro e member
      simp only [List.mem_cons, List.not_mem_nil, or_false] at member
      rcases member with rfl | rfl <;>
        exact ⟨List.all_eq_true.mp rfl, List.all_eq_true.mp rfl, rfl, List.all_eq_true.mp rfl⟩
    case distinct =>
      simp only [DistinctLabels]
      decide

end Phrasebook.Compiled

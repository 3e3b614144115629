import Phrasebook.Proofs.Compiled.Rewriting
import Phrasebook.Proofs.Plain.Gathered
import Phrasebook.Proofs.Plain.Rewriting

/-!
# Compiling a plain file

Whatever a plain file holds, a compiled file keeps: its text is in single bytes,
of which only the zero byte ends a stored text, its spacing is normal, and no
part of an entry is longer than the file. So what is loaded from a plain file
without a zero byte comes back from the compiled file that is written of it.
-/

namespace Phrasebook

theorem Text.isStorable_of_isLatin {c : Char} (latin : isLatin c = true) (nonzero : c ≠ '\x00') :
    isStorable c = true := by
  have low : c.toNat < 256 := of_decide_eq_true latin
  refine isStorable_of_toNat ?_ (by omega)
  intro zero
  exact nonzero (Char.toNat_inj.mp zero)

theorem Text.length_encodeUnits_of_isLatin {text : String}
    (latin : ∀ c ∈ text.toList, isLatin c = true) : (encodeUnits text).length = text.length := by
  have one : ∀ c ∈ text.toList, charUnits c = [c.toNat.toUInt16] := by
    intro c member
    have low : c.toNat < 256 := of_decide_eq_true (latin c member)
    exact if_pos (by omega)
  rw [encodeUnits, List.flatMap_congr one, ← List.map_eq_flatMap, List.length_map,
    String.length_toList]

namespace Conversion

open Bytes

section Entry

variable {e : Entry} (canonical : Plain.Canonical e)

include canonical

/-- The lengths of the entry fit their words, since those of the file do. -/
theorem storable_of_canonical {bytes : List UInt8} (found : Plain.FoundIn bytes e)
    (short : bytes.length < UInt32.size) : Compiled.Storable e := by
  have units := Text.length_encodeUnits_of_isLatin fun c member => (canonical.text c member).1
  refine ⟨Nat.lt_of_le_of_lt found.label short, ?_, Nat.lt_of_le_of_lt found.cue short⟩
  rw [units]
  exact Nat.lt_of_le_of_lt found.text short

theorem settled_of_canonical (nonzero : '\x00' ∉ e.text.toList) : Compiled.Settled e where
  label := by
    obtain ⟨line, shown, -, -⟩ := canonical.label
    rw [shown]
    exact fun c member => Text.isLatin_of_mem_widen member
  cue := by
    intro c member
    have ascii := Text.isCueChar_lt (canonical.cue c member)
    exact decide_eq_true (by omega)
  spacing := canonical.spacing
  storable := by
    intro c member
    refine Text.isStorable_of_isLatin (canonical.text c member).1 ?_
    rintro rfl
    exact nonzero member

end Entry

/--
A plain file without a zero byte that is loaded and written as a compiled file
is loaded from it as the same listing, under the language that was named.
-/
theorem load_compiled (data : List UInt8) (listing : Listing) (languageId : UInt32)
    (short : data.length < UInt32.size) (nonzero : (0 : UInt8) ∉ data)
    (loaded : Plain.load (.ofBytes data) = .ok listing) :
    Compiled.load (.ofBytes (Compiled.print listing.entries languageId)) =
      .ok { listing with languageId } := by
  have canonical := Plain.canonical_of_load loaded
  have found := Plain.foundIn_of_load loaded
  have storable : ∀ e ∈ listing.entries, Compiled.Storable e :=
    fun e member => storable_of_canonical (canonical e member) (found e member) short
  have settled : ∀ e ∈ listing.entries, Compiled.Settled e :=
    fun e member => settled_of_canonical (canonical e member)
      fun zero => nonzero ((found e member).zero zero)
  obtain ⟨distinct, whole⟩ := Plain.eq_listing_of_load loaded
  rw [Compiled.load_print_eq storable, Compiled.unrepeated_readBack settled distinct,
    congrArg Listing.maxLabelLen whole]

/-- A phrase with a tab, a newline and letters beyond ASCII, and a cue that gets its `e`. -/
def spokenEntries : List Entry :=
  [{ label := "É", text := "ç\t\nd", cue := "c1" }, { label := "B" }]

theorem load_print_spokenEntries :
    Plain.load (.ofBytes (Plain.print spokenEntries)) =
      .ok { entries := [{ label := "É", text := "ç\t\nd", cue := "c1e" }, { label := "B" }]
            maxLabelLen := 1, languageId := 0 } := by
  have named : ∀ e ∈ spokenEntries, ∀ c ∈ e.cue.toList, Text.isCueChar c = true := by
    intro e member
    simp only [spokenEntries, List.mem_cons, List.not_mem_nil, or_false] at member
    rcases member with rfl | rfl <;> exact List.all_eq_true.mp rfl
  rw [Plain.load_print_eq (by decide) (by decide) named]
  cbv

theorem load_compiled_spoken :
    (Plain.print spokenEntries).length < UInt32.size ∧ (0 : UInt8) ∉ Plain.print spokenEntries ∧
      Compiled.load (.ofBytes (Compiled.print
          [{ label := "É", text := "ç\t\nd", cue := "c1e" }, { label := "B" }] 9)) =
        .ok { entries := [{ label := "É", text := "ç\t\nd", cue := "c1e" }, { label := "B" }]
              maxLabelLen := 1, languageId := 9 } := by
  have short : (Plain.print spokenEntries).length < UInt32.size := by decide
  have nonzero : (0 : UInt8) ∉ Plain.print spokenEntries := by decide
  have back := load_compiled _ _ 9 short nonzero load_print_spokenEntries
  exact ⟨short, nonzero, back⟩

end Conversion

end Phrasebook

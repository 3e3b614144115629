import Mathlib
import Phrasebook.Label.Order
import Phrasebook.Proofs.Text.SingleByte
import Phrasebook.Text.Utf8

/-!
# ASCII text

Below U+0080 a character has the same byte alone, in UTF-8 and in the plain
format. Classes of bytes are there classes of characters, and folding the case
of bytes is folding the case of their characters.
-/

namespace Phrasebook.Text

open Bytes

/-- The character of a speech cue: an ASCII letter, a digit or an underscore. -/
def isCueChar (c : Char) : Bool := c.isAlphanum || c = '_'

theorem toNat_narrowChar {c : Char} (latin : c.toNat < 256) : (narrowChar c).toNat = c.toNat := by
  rw [narrowChar, if_pos latin]
  exact Nat.mod_eq_of_lt latin

theorem isDigit_iff {b : UInt8} : isDigit b = true ↔ 48 ≤ b.toNat ∧ b.toNat ≤ 57 := by
  simp only [isDigit, Bool.and_eq_true, decide_eq_true_eq, UInt8.le_iff_toNat_le]
  rfl

theorem isDigit_char_iff {c : Char} : c.isDigit = true ↔ 48 ≤ c.toNat ∧ c.toNat ≤ 57 := by
  simp only [Char.isDigit, Bool.and_eq_true, decide_eq_true_eq, UInt32.le_iff_toNat_le, ge_iff_le]
  rfl

theorem isCueByte_iff {b : UInt8} :
    isCueByte b = true ↔
      (((65 ≤ b.toNat ∧ b.toNat ≤ 90) ∨ (97 ≤ b.toNat ∧ b.toNat ≤ 122)) ∨
        (48 ≤ b.toNat ∧ b.toNat ≤ 57)) ∨ b.toNat = 95 := by
  simp only [isCueByte, Bool.or_eq_true, Bool.and_eq_true, decide_eq_true_eq, isDigit_iff,
    UInt8.le_iff_toNat_le, ← UInt8.toNat_inj]
  rfl

theorem isCueChar_iff {c : Char} :
    isCueChar c = true ↔
      (((65 ≤ c.toNat ∧ c.toNat ≤ 90) ∨ (97 ≤ c.toNat ∧ c.toNat ≤ 122)) ∨
        (48 ≤ c.toNat ∧ c.toNat ≤ 57)) ∨ c.toNat = 95 := by
  simp only [isCueChar, Char.isAlphanum, Char.isAlpha, Char.isUpper, Char.isLower,
    Bool.or_eq_true, Bool.and_eq_true, decide_eq_true_eq, isDigit_char_iff, ge_iff_le,
    UInt32.le_iff_toNat_le, ← Char.toNat_inj]
  rfl

theorem isCueChar_lt {c : Char} (named : isCueChar c = true) : c.toNat < 128 := by
  have bounds := isCueChar_iff.mp named
  omega

theorem isDigit_narrowChar {c : Char} (latin : c.toNat < 256) :
    isDigit (narrowChar c) = c.isDigit := by
  rw [Bool.eq_iff_iff, isDigit_iff, isDigit_char_iff, toNat_narrowChar latin]

theorem isCueByte_narrowChar {c : Char} (latin : c.toNat < 256) :
    isCueByte (narrowChar c) = isCueChar c := by
  rw [Bool.eq_iff_iff, isCueByte_iff, isCueChar_iff, toNat_narrowChar latin]

/-! ## UTF-8 -/

theorem utf8EncodeChar_of_lt {c : Char} (ascii : c.toNat < 128) :
    String.utf8EncodeChar c = [narrowChar c] := by
  have small : c.val ≤ 127 := UInt32.le_iff_toNat_le.mpr (Nat.le_of_lt_succ ascii)
  rw [String.utf8EncodeChar_eq_singleton (Char.utf8Size_eq_one_iff.mpr small), narrowChar,
    if_pos (Nat.lt_trans ascii (by decide))]
  rfl

theorem utf8_eq_narrow {text : String} (ascii : ∀ c ∈ text.toList, c.toNat < 128) :
    utf8 text = narrow text := by
  unfold utf8 narrow
  rw [List.map_eq_flatMap]
  apply List.flatMap_congr
  intro c member
  exact utf8EncodeChar_of_lt (ascii c member)

/-! ## The case of letters -/

theorem toLower_widenByte (b : UInt8) : (widenByte b).toLower = widenByte (foldCase b) := by
  have upper : ((widenByte b).val ≥ 'A'.val ∧ (widenByte b).val ≤ 'Z'.val) ↔
      0x41 ≤ b ∧ b ≤ 0x5A := by
    simp only [ge_iff_le, UInt32.le_iff_toNat_le, UInt8.le_iff_toNat_le]
    rfl
  apply Char.toNat_inj.mp
  unfold Char.toLower foldCase
  by_cases letter : 0x41 ≤ b ∧ b ≤ 0x5A
  · rw [dif_pos (upper.mpr letter)]
    simp only [letter.1, letter.2, decide_true, Bool.and_self, if_true]
    have high : b.toNat ≤ 90 := UInt8.le_iff_toNat_le.mp letter.2
    have wide : (widenByte b).val.toNat = b.toNat := rfl
    have apart : ('a'.val - 'A'.val).toNat = 32 := rfl
    have byte : (0x20 : UInt8).toNat = 32 := rfl
    rw [toNat_widenByte, UInt8.toNat_add, byte]
    change ((widenByte b).val + ('a'.val - 'A'.val)).toNat = _
    rw [UInt32.toNat_add, wide, apart]
    omega
  · rw [dif_neg (mt upper.mp letter), if_neg (by simpa using letter)]

theorem fold_widen (bytes : List UInt8) :
    Label.fold (widen bytes) = (bytes.map foldCase).map widenByte := by
  rw [Label.fold, toList_widen, List.map_map, List.map_map]
  exact List.map_congr_left fun b _ => toLower_widenByte b

theorem same_widen_iff {a b : List UInt8} :
    Label.same (widen a) (widen b) = true ↔ a.map foldCase = b.map foldCase := by
  rw [Label.same_iff, fold_widen, fold_widen]
  constructor
  · intro same
    have narrowed := congrArg (List.map narrowChar) same
    simpa [List.map_map, Function.comp_def] using narrowed
  · intro same
    rw [same]

end Phrasebook.Text

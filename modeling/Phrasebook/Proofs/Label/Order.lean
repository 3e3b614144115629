import Phrasebook.Proofs.Text.Ascii

/-!
# Labels that are level in the label order

The order compares folded UTF-8 bytes, while sameness compares folded
characters. Folding changes only ASCII letters, whose bytes belong to no other
character, so that the two agree: `order_eq_iff`.
-/

namespace Phrasebook

open Bytes

namespace Text

/-! ## Folding of encoded characters -/

theorem le_of_mem_utf8EncodeChar {c : Char} (wide : 128 ≤ c.toNat) :
    ∀ b ∈ String.utf8EncodeChar c, 128 ≤ b.toNat := by
  have value : c.val.toNat = c.toNat := rfl
  fun_cases String.utf8EncodeChar c
  case case1 v narrow => omega
  case case2 | case3 | case4 =>
    simp only [List.forall_mem_cons, List.not_mem_nil, false_implies, implies_true, and_true,
      UInt8.toNat_ofNat']
    omega

theorem foldCase_of_le {b : UInt8} (wide : 128 ≤ b.toNat) : foldCase b = b := by
  have beyond : ¬ b ≤ 0x5A := by
    rw [UInt8.le_iff_toNat_le]
    exact Nat.not_le_of_gt (Nat.lt_of_lt_of_le (by decide) wide)
  simp [foldCase, beyond]

theorem toLower_of_le {c : Char} (wide : 128 ≤ c.toNat) : c.toLower = c := by
  have beyond : ¬ c.val ≤ 'Z'.val := by
    rw [UInt32.le_iff_toNat_le]
    exact Nat.not_le_of_gt (Nat.lt_of_lt_of_le (by decide) wide)
  rw [Char.toLower, dif_neg fun upper => beyond upper.2]

theorem foldCase_lt {b : UInt8} (ascii : b.toNat < 128) : (foldCase b).toNat < 128 := by
  unfold foldCase
  split
  next letter =>
    simp only [Bool.and_eq_true, decide_eq_true_eq, UInt8.le_iff_toNat_le] at letter
    have high : b.toNat ≤ 90 := letter.2
    have byte : (0x20 : UInt8).toNat = 32 := rfl
    rw [UInt8.toNat_add, byte]
    omega
  next => exact ascii

theorem utf8EncodeChar_toLower (c : Char) :
    String.utf8EncodeChar c.toLower = (String.utf8EncodeChar c).map foldCase := by
  rcases Nat.lt_or_ge c.toNat 128 with ascii | wide
  · have latin : c.toNat < 256 := Nat.lt_trans ascii (by decide)
    have lower : c.toLower = widenByte (foldCase (narrowChar c)) := by
      rw [← toLower_widenByte, widenByte_narrowChar, isLatin, if_pos (decide_eq_true latin)]
    have lowerAscii : c.toLower.toNat < 128 := by
      rw [lower, toNat_widenByte]
      exact foldCase_lt (by rwa [toNat_narrowChar latin])
    rw [utf8EncodeChar_of_lt ascii, utf8EncodeChar_of_lt lowerAscii, lower, narrowChar_widenByte]
    rfl
  · have same : ∀ b ∈ String.utf8EncodeChar c, foldCase b = b :=
      fun b member => foldCase_of_le (le_of_mem_utf8EncodeChar wide b member)
    rw [toLower_of_le wide, List.map_congr_left same, List.map_id']

theorem utf8_inj {a b : String} : utf8 a = utf8 b ↔ a = b := by
  constructor
  · intro same
    have decoded := congrArg ofUtf8? same
    simpa using decoded
  · exact congrArg utf8

end Text

namespace Label

/-! ## Level labels -/

theorem sortKey_eq_utf8 (label : String) :
    sortKey label = Text.utf8 (String.ofList (fold label)) := by
  unfold sortKey Text.utf8 fold
  rw [String.toList_ofList, List.map_flatMap, List.flatMap_map]
  exact List.flatMap_congr fun c _ => (Text.utf8EncodeChar_toLower c).symm

theorem order_eq_iff {a b : String} : order a b = .eq ↔ same a b = true := by
  rw [order, Std.compare_eq_iff_eq, sortKey_eq_utf8, sortKey_eq_utf8, Text.utf8_inj,
    String.ofList_inj, same_iff]

end Label

end Phrasebook

import Phrasebook.Proofs.Label.Order
import Phrasebook.Proofs.Text.StoredUnits

/-!
# The label order is the order of code points

The bytes of a character, in UTF-8, tell its place among the characters before
anything that follows them. So labels that are compared by their folded bytes are
compared by their folded code points, and labels of single bytes by these bytes.
-/

namespace Phrasebook

open Bytes

namespace Text

/-! ## The bytes of a character -/

/-- The bytes differ, and where they first do, the first ones have the smaller byte. -/
def Precedes : List UInt8 → List UInt8 → Prop
  | a :: front, b :: rest => a.toNat < b.toNat ∨ a.toNat = b.toNat ∧ Precedes front rest
  | _, _ => False

theorem compare_eq_compare_toNat (a b : UInt8) : compare a b = compare a.toNat b.toNat := by
  simp only [compare, compareOfLessAndEq, UInt8.lt_iff_toNat_lt, UInt8.toNat_inj]

/-- What follows makes no difference any more. -/
theorem Precedes.compare_append {x y : List UInt8} (before : Precedes x y)
    (front rest : List UInt8) : compare (x ++ front) (y ++ rest) = .lt := by
  induction x generalizing y with
  | nil => exact before.elim
  | cons a x ih =>
      cases y with
      | nil => exact before.elim
      | cons b y =>
          rw [List.cons_append, List.cons_append, List.compare_cons_cons,
            compare_eq_compare_toNat]
          rcases before with less | ⟨level, more⟩
          · rw [Nat.compare_eq_lt.mpr less]
            rfl
          · rw [Nat.compare_eq_eq.mpr level]
            exact ih more

/-- The first byte tells how many there are; among as many, the first that differs decides. -/
theorem precedes_utf8EncodeChar {c d : Char} (less : c.toNat < d.toNat) :
    Precedes (String.utf8EncodeChar c) (String.utf8EncodeChar d) := by
  have first : c.val.toNat = c.toNat := rfl
  have second : d.val.toNat = d.toNat := rfl
  have bound : d.toNat < 0x110000 := by
    have range := toNat_lt_or_le d
    omega
  fun_cases String.utf8EncodeChar c <;> fun_cases String.utf8EncodeChar d <;>
    simp (disch := omega) only [Precedes, UInt8.toNat_ofNat', Nat.mod_eq_of_lt] <;> omega

theorem compare_append_left (x front rest : List UInt8) :
    compare (x ++ front) (x ++ rest) = compare front rest := by
  induction x with
  | nil => rfl
  | cons a x ih =>
      rw [List.cons_append, List.cons_append, List.compare_cons_cons, Std.compare_self, ih]
      rfl

theorem compare_utf8EncodeChar_append (c d : Char) (front rest : List UInt8) :
    compare (String.utf8EncodeChar c ++ front) (String.utf8EncodeChar d ++ rest) =
      (compare c.toNat d.toNat).then (compare front rest) := by
  rcases Nat.lt_trichotomy c.toNat d.toNat with less | level | more
  · rw [(precedes_utf8EncodeChar less).compare_append, Nat.compare_eq_lt.mpr less]
    rfl
  · obtain rfl := Char.toNat_inj.mp level
    rw [compare_append_left, Std.compare_self]
    rfl
  · rw [Std.OrientedOrd.eq_swap, (precedes_utf8EncodeChar more).compare_append,
      Nat.compare_eq_gt.mpr more]
    rfl

theorem exists_utf8EncodeChar_eq_cons (c : Char) :
    ∃ b more, String.utf8EncodeChar c = b :: more := by
  fun_cases String.utf8EncodeChar c <;> exact ⟨_, _, rfl⟩

theorem compare_flatMap_utf8EncodeChar (chars others : List Char) :
    compare (chars.flatMap String.utf8EncodeChar) (others.flatMap String.utf8EncodeChar) =
      compare (chars.map Char.toNat) (others.map Char.toNat) := by
  induction chars generalizing others with
  | nil =>
      cases others with
      | nil => rfl
      | cons d rest =>
          obtain ⟨b, more, bytes⟩ := exists_utf8EncodeChar_eq_cons d
          rw [List.flatMap_cons, bytes]
          rfl
  | cons c front ih =>
      cases others with
      | nil =>
          obtain ⟨b, more, bytes⟩ := exists_utf8EncodeChar_eq_cons c
          rw [List.flatMap_cons, bytes]
          rfl
      | cons d rest =>
          rw [List.flatMap_cons, List.flatMap_cons, compare_utf8EncodeChar_append, ih,
            List.map_cons, List.map_cons, List.compare_cons_cons]

theorem compare_map_toNat (front rest : List UInt8) :
    compare (front.map UInt8.toNat) (rest.map UInt8.toNat) = compare front rest := by
  induction front generalizing rest with
  | nil => cases rest <;> rfl
  | cons a front ih =>
      cases rest with
      | nil => rfl
      | cons b rest =>
          rw [List.map_cons, List.map_cons, List.compare_cons_cons, List.compare_cons_cons,
            compare_eq_compare_toNat, ih]

end Text

namespace Label

/-! ## The order of labels -/

/-- The code points of a label with ASCII letters in lower case. -/
def codePoints (label : String) : List Nat := (fold label).map Char.toNat

theorem order_eq_compare_codePoints (a b : String) :
    order a b = compare (codePoints a) (codePoints b) := by
  rw [order, sortKey_eq_utf8, sortKey_eq_utf8, Text.utf8, Text.utf8, String.toList_ofList,
    String.toList_ofList]
  exact Text.compare_flatMap_utf8EncodeChar (fold a) (fold b)

theorem order_eq_iff_fold_eq {a b : String} : order a b = .eq ↔ fold a = fold b := by
  rw [order_eq_iff, same_iff]

theorem codePoints_widen (bytes : List UInt8) :
    codePoints (Text.widen bytes) = (bytes.map foldCase).map UInt8.toNat := by
  rw [codePoints, Text.fold_widen, List.map_map]
  exact List.map_congr_left fun b _ => Text.toNat_widenByte b

theorem order_widen (front rest : List UInt8) :
    order (Text.widen front) (Text.widen rest) =
      compare (front.map foldCase) (rest.map foldCase) := by
  rw [order_eq_compare_codePoints, codePoints_widen, codePoints_widen, Text.compare_map_toNat]

/--
Labels are ordered by their code points, with ASCII letters in lower case: a
total order in which the labels that are the same up to that case are level. For
labels of single bytes it is the order of these bytes, with the same letters folded.
-/
theorem order_by_codePoints (a b c : String) (front rest : List UInt8) :
    order a b = compare (codePoints a) (codePoints b) ∧
      (order a b = .eq ↔ fold a = fold b) ∧
      order b a = (order a b).swap ∧
      ((order a b).isLE = true → (order b a).isLE = true → fold a = fold b) ∧
      ((order a b).isLE = true → (order b c).isLE = true → (order a c).isLE = true) ∧
      order (Text.widen front) (Text.widen rest) =
        compare (front.map foldCase) (rest.map foldCase) := by
  refine ⟨order_eq_compare_codePoints a b, order_eq_iff_fold_eq, Std.OrientedCmp.eq_swap, ?_,
    Std.TransCmp.isLE_trans, order_widen front rest⟩
  intro le ge
  exact order_eq_iff_fold_eq.mp (Std.OrientedCmp.isLE_antisymm le ge)

/-- The middle label is level with the first; U+FFFF comes before the characters beyond it. -/
theorem order_by_codePoints_beyond_units :
    let a := "MENU\uFFFF"
    let b := "menu\uFFFF"
    let c := "Menu😀"
    ((order a b).isLE = true ∧ (order b a).isLE = true ∧ (order b c).isLE = true) ∧
      fold a = fold b ∧ (order a c).isLE = true ∧
      order (Text.widen [0x5A, 0xE9]) (Text.widen [0x7A, 0xC9]) = .gt := by
  intro a b c
  have le : (order a b).isLE = true := by decide
  have ge : (order b a).isLE = true := by decide
  have next : (order b c).isLE = true := by decide
  obtain ⟨-, -, -, level, onward, bytes⟩ :=
    order_by_codePoints a b c [0x5A, 0xE9] [0x7A, 0xC9]
  exact ⟨⟨le, ge, next⟩, level le ge, onward le next, bytes.trans (by decide)⟩

end Label

end Phrasebook

import Phrasebook.Text.Utf8

/-!
# Beginnings of encoded text

The bytes that encode a character tell where it ends. So one text begins with
the bytes of another exactly if it begins with its characters.
-/

namespace Phrasebook.Text

theorem eq_of_utf8EncodeChar_append {c d : Char} {front rest : List UInt8}
    (same : String.utf8EncodeChar c ++ front = String.utf8EncodeChar d ++ rest) : c = d := by
  have first : ((String.utf8EncodeChar c ++ front).toByteArray).utf8DecodeChar? 0 = some c := by
    rw [List.toByteArray_append]
    exact ByteArray.utf8DecodeChar?_utf8EncodeChar_append
  have second : ((String.utf8EncodeChar d ++ rest).toByteArray).utf8DecodeChar? 0 = some d := by
    rw [List.toByteArray_append]
    exact ByteArray.utf8DecodeChar?_utf8EncodeChar_append
  rw [same, second, Option.some.injEq] at first
  exact first.symm

theorem flatMap_utf8EncodeChar_isPrefix_iff {chars others : List Char} :
    chars.flatMap String.utf8EncodeChar <+: others.flatMap String.utf8EncodeChar ↔
      chars <+: others := by
  induction chars generalizing others with
  | nil => simp
  | cons c rest ih =>
      cases others with
      | nil => simp
      | cons d more =>
          rw [List.flatMap_cons, List.flatMap_cons, List.cons_prefix_cons]
          constructor
          · rintro ⟨left, whole⟩
            rw [List.append_assoc] at whole
            obtain rfl := eq_of_utf8EncodeChar_append whole
            exact ⟨rfl, ih.mp ⟨left, List.append_cancel_left whole⟩⟩
          · rintro ⟨rfl, front⟩
            exact (List.prefix_append_right_inj _).mpr (ih.mpr front)

theorem utf8_isPrefix_iff {start text : String} :
    utf8 start <+: utf8 text ↔ start.toList <+: text.toList :=
  flatMap_utf8EncodeChar_isPrefix_iff

end Phrasebook.Text

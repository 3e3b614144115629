import Mathlib.Data.List.Basic
import Phrasebook.Proofs.Text.SingleByte
import Phrasebook.Text.Escape

/-!
# What escaped text is made of

Each character is written as a backslash and a byte that stands for it, or as
its own single byte. Only the second way leaves a byte as it was, and it never
writes a backslash, a double quote, a tab or a newline.
-/

namespace Phrasebook.Text

open Bytes

def needsEscape (c : Char) : Bool := c = '\\' || c = '"' || c = '\t' || c = '\n'

@[elab_as_elim] theorem of_needsEscape {property : Char → Prop} (slash : property '\\') (mark : property '"')
    (tabulator : property '\t') (lineEnd : property '\n') {c : Char}
    (special : needsEscape c = true) : property c := by
  simp only [needsEscape, Bool.or_eq_true, decide_eq_true_eq] at special
  rcases special with ((same | same) | same) | same <;> subst same <;> assumption

theorem forall_mem_codes {property : UInt8 → Prop} (slash : property backslash)
    (mark : property quote) (tabulator : property 0x74) (lineEnd : property 0x6E) :
    ∀ b ∈ [backslash, quote, 0x74, 0x6E], property b := by
  intro b among
  simp only [List.mem_cons, List.not_mem_nil, or_false] at among
  rcases among with same | same | same | same <;> subst same <;> assumption

theorem narrowChar_eq_iff {c : Char} {b : UInt8} (other : b ≠ questionMark) :
    narrowChar c = b ↔ c = widenByte b := by
  constructor
  · intro same
    have back := widenByte_narrowChar c
    rw [same] at back
    by_cases latin : isLatin c = true
    · rw [back, if_pos latin]
    · have mark : widenByte b = widenByte questionMark := by
        rw [back, if_neg latin]
        rfl
      exact absurd (narrowChar_widenByte b ▸ mark ▸ narrowChar_widenByte questionMark) other.symm
  · intro same
    rw [same, narrowChar_widenByte]

theorem escapeChar_of_plain {c : Char} (plain : needsEscape c = false) :
    escapeChar c = [narrowChar c] := by
  simp only [needsEscape, Bool.or_eq_false_iff, decide_eq_false_iff_not] at plain
  unfold escapeChar
  split <;> simp_all

theorem escapeChar_of_needsEscape {c : Char} (special : needsEscape c = true) :
    ∃ b, escapeChar c = [backslash, b] ∧ escapedChar b = c ∧
      b ∈ [backslash, quote, 0x74, 0x6E] := by
  refine of_needsEscape ?_ ?_ ?_ ?_ special
  · exact ⟨backslash, rfl, rfl, by decide⟩
  · exact ⟨quote, rfl, rfl, by decide⟩
  · exact ⟨0x74, rfl, rfl, by decide⟩
  · exact ⟨0x6E, rfl, rfl, by decide⟩

theorem narrowChar_of_plain {c : Char} (plain : needsEscape c = false) :
    narrowChar c ≠ backslash ∧ narrowChar c ≠ quote ∧ narrowChar c ≠ tab ∧
      narrowChar c ≠ newline := by
  simp only [needsEscape, Bool.or_eq_false_iff, decide_eq_false_iff_not] at plain
  rcases plain with ⟨⟨⟨noSlash, noQuote⟩, noTab⟩, noNewline⟩
  refine ⟨?_, ?_, ?_, ?_⟩ <;> rw [Ne, narrowChar_eq_iff (by decide)]
  · exact noSlash
  · exact noQuote
  · exact noTab
  · exact noNewline

theorem mem_escapeChar {c : Char} {b : UInt8} (here : b ∈ escapeChar c) :
    b ∈ [backslash, quote, 0x74, 0x6E] ∨ needsEscape c = false ∧ b = narrowChar c := by
  cases special : needsEscape c with
  | false =>
      rw [escapeChar_of_plain special, List.mem_singleton] at here
      exact .inr ⟨rfl, here⟩
  | true =>
      rcases escapeChar_of_needsEscape special with ⟨code, written, -, among⟩
      rw [written] at here
      rcases List.mem_cons.mp here with same | same
      · exact .inl (same ▸ List.mem_cons_self)
      · exact .inl (List.mem_singleton.mp same ▸ among)

/-- A byte that stands for no character behind a backslash, nor for itself, is not written. -/
theorem not_mem_escape {b : UInt8} (noCode : b ∉ [backslash, quote, 0x74, 0x6E])
    (notPlain : ∀ c, needsEscape c = false → narrowChar c ≠ b) (text : String) :
    b ∉ escape text := by
  intro member
  rcases List.mem_flatMap.mp member with ⟨c, -, here⟩
  rcases mem_escapeChar here with code | plain
  · exact noCode code
  · exact notPlain c plain.1 plain.2.symm

theorem newline_not_mem_escape (text : String) : newline ∉ escape text :=
  not_mem_escape (by decide) (fun _ plain => (narrowChar_of_plain plain).2.2.2) text

theorem tab_not_mem_escape (text : String) : tab ∉ escape text :=
  not_mem_escape (by decide) (fun _ plain => (narrowChar_of_plain plain).2.2.1) text

theorem eq_of_sentinel_mem_escapeChar {c : Char} (here : sentinel ∈ escapeChar c) : c = 'ÿ' := by
  rcases mem_escapeChar here with code | plain
  · exact absurd code (by decide)
  · exact (narrowChar_eq_iff (by decide)).mp plain.2.symm

theorem escape_eq_narrow {text : String} (plain : ∀ c ∈ text.toList, needsEscape c = false) :
    escape text = narrow text := by
  unfold escape narrow
  rw [List.map_eq_flatMap]
  exact List.flatMap_congr fun c member => escapeChar_of_plain (plain c member)

theorem length_escape (text : String) :
    (escape text).length = text.length + text.toList.countP needsEscape := by
  rw [← String.length_toList, escape]
  induction text.toList with
  | nil => rfl
  | cons c rest ih =>
      rw [List.flatMap_cons, List.length_append, ih, List.length_cons, List.countP_cons]
      cases special : needsEscape c with
      | false =>
          rw [escapeChar_of_plain special]
          simp only [List.length_singleton, Bool.false_eq_true, if_false]
          omega
      | true =>
          rcases escapeChar_of_needsEscape special with ⟨b, written, -, -⟩
          rw [written]
          simp only [List.length_cons, List.length_nil, if_true]
          omega

/-! ## Text that was escaped -/

section Translated

variable {change : UInt8 → UInt8} (codes : ∀ b ∈ [backslash, quote, 0x74, 0x6E], change b = b)
  (others : ∀ b, b ≠ backslash → change b ≠ backslash)

include codes others

theorem unescapeFrom_map_escapeChar (c : Char) (rest : List UInt8) :
    unescapeFrom false ((escapeChar c).map change ++ rest) =
      (if needsEscape c then c else widenByte (change (narrowChar c))) ::
        unescapeFrom false rest := by
  cases special : needsEscape c with
  | false =>
      have other := others _ (narrowChar_of_plain special).1
      rw [escapeChar_of_plain special]
      simp [unescapeFrom, other]
  | true =>
      rcases escapeChar_of_needsEscape special with ⟨code, written, means, among⟩
      rw [written]
      simp [unescapeFrom, codes backslash List.mem_cons_self, codes code among, means]

/-- Escaped text whose bytes were changed reads as the text with its characters changed. -/
theorem unescapeFrom_map_escape {value : Char → Char}
    (kept : ∀ c, needsEscape c = true → value c = c) {chars : List Char}
    (plain : ∀ c ∈ chars, needsEscape c = false → widenByte (change (narrowChar c)) = value c) :
    unescapeFrom false ((chars.flatMap escapeChar).map change) = chars.map value := by
  induction chars with
  | nil => rfl
  | cons c rest ih =>
      rw [List.flatMap_cons, List.map_append, unescapeFrom_map_escapeChar codes others,
        ih fun d member => plain d (.tail c member), List.map_cons]
      cases special : needsEscape c with
      | false => rw [if_neg Bool.false_ne_true, plain c List.mem_cons_self special]
      | true => rw [if_pos rfl, kept c special]

end Translated

theorem unescape_escape (text : String) : unescape (escape text) = singleByte text := by
  have read : unescapeFrom false ((escape text).map id) =
      text.toList.map fun c => if isLatin c then c else '?' :=
    unescapeFrom_map_escape (fun _ _ => rfl) (fun _ other => other)
      (fun _ special => of_needsEscape rfl rfl rfl rfl special)
      fun c _ _ => widenByte_narrowChar c
  apply String.toList_inj.mp
  rw [toList_unescape, singleByte, String.toList_map, ← read, List.map_id]

theorem mem_unescapeFrom {awaiting : Bool} {bytes : List UInt8} {c : Char}
    (member : c ∈ unescapeFrom awaiting bytes) :
    c = '\t' ∨ c = '\n' ∨ ∃ b ∈ bytes, c = widenByte b := by
  induction bytes generalizing awaiting with
  | nil => cases awaiting <;> cases member
  | cons b rest ih =>
      have later {flag : Bool} (inRest : c ∈ unescapeFrom flag rest) :
          c = '\t' ∨ c = '\n' ∨ ∃ b' ∈ b :: rest, c = widenByte b' := by
        rcases ih inRest with same | same | ⟨b', among, same⟩
        · exact .inl same
        · exact .inr (.inl same)
        · exact .inr (.inr ⟨b', .tail b among, same⟩)
      cases awaiting with
      | true =>
          rcases List.mem_cons.mp member with same | inRest
          · rw [same, escapedChar]
            split
            · exact .inl rfl
            · split
              · exact .inr (.inl rfl)
              · exact .inr (.inr ⟨b, List.mem_cons_self, rfl⟩)
          · exact later inRest
      | false =>
          rw [unescapeFrom] at member
          split at member
          · exact later member
          · rcases List.mem_cons.mp member with same | inRest
            · exact .inr (.inr ⟨b, List.mem_cons_self, same⟩)
            · exact later inRest

theorem isLatin_of_mem_unescape {bytes : List UInt8} {c : Char}
    (member : c ∈ (unescape bytes).toList) : isLatin c = true := by
  rw [toList_unescape] at member
  rcases mem_unescapeFrom member with rfl | rfl | ⟨b, -, rfl⟩
  · rfl
  · rfl
  · exact isLatin_widenByte b

theorem length_unescapeFrom_le (awaiting : Bool) (bytes : List UInt8) :
    (unescapeFrom awaiting bytes).length ≤ bytes.length := by
  induction bytes generalizing awaiting with
  | nil => cases awaiting <;> exact Nat.le_refl _
  | cons b rest ih =>
      cases awaiting with
      | true => exact Nat.succ_le_succ (ih false)
      | false =>
          rw [unescapeFrom]
          split
          · exact Nat.le_succ_of_le (ih true)
          · exact Nat.succ_le_succ (ih false)

end Phrasebook.Text

import Phrasebook.Proofs.Plain.RoundTrip

/-!
# Escaped text as a code

Text comes back from its escaped form, except for the characters that have no
single byte. The form can stand between double quotes on one line, and what any
bytes stand for can be written in it without loss, whatever they escape.
-/

namespace Phrasebook.Plain

open Bytes

theorem unescape_escape_unescape (bytes : List UInt8) :
    Text.unescape (Text.escape (Text.unescape bytes)) = Text.unescape bytes := by
  rw [Text.unescape_escape]
  exact Text.singleByte_eq_self fun c member => Text.isLatin_of_mem_unescape member

/--
Escaped text reads as the text with a question mark for each character above
U+00FF. It has no line break and no tab, and a quote that follows it is the first
one that is not escaped. What any bytes read as is read again from its own form.
-/
theorem escape_codes_text (text : String) (bytes : List UInt8) :
    Text.unescape (Text.escape text) =
        text.map (fun c => if c.toNat ≤ 0xFF then c else '?') ∧
      (Text.unescape (Text.escape text) = text ↔ ∀ c ∈ text.toList, c.toNat ≤ 0xFF) ∧
      newline ∉ Text.escape text ∧ tab ∉ Text.escape text ∧
      QuotesEscaped (Text.escape text) ∧ backslashRun (Text.escape text) % 2 = 0 ∧
      Text.unescape (Text.escape (Text.unescape bytes)) = Text.unescape bytes := by
  have latin (c : Char) : Text.isLatin c = true ↔ c.toNat ≤ 0xFF := by
    rw [Text.isLatin, decide_eq_true_iff]
    exact Nat.lt_succ_iff
  have quotable := quotable_escape text.toList
  simp only [← latin]
  refine ⟨Text.unescape_escape text, ?_, Text.newline_not_mem_escape text,
    Text.tab_not_mem_escape text, quotable.1, quotable.2, unescape_escape_unescape bytes⟩
  rw [Text.unescape_escape, Text.singleByte_eq_self_iff]

/-- The run in front of the quote is made of a backslash of the text and of what escapes both. -/
example : Text.escape "\\\"" = [backslash, backslash, backslash, quote] := by decide

end Phrasebook.Plain

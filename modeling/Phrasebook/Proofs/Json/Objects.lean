import Phrasebook.Json.Pretty
import Phrasebook.Json.Value
import Phrasebook.Proofs.Json.Tokens

/-!
# Objects of texts and truth values

However such an object is written, it is read as its members in order
(`parse?_of_objectText`). One member on a line is a way to write it
(`objectText_pretty`).
-/

namespace Phrasebook.Json

/-! ## Reading -/

def Scalar.value : Scalar → Value
  | .text content => .text (some content)
  | .bool value => .bool value

def memberValue (m : String × Scalar) : Option String × Value := (some m.1, m.2.value)

theorem run_memberTokens (m : String × Scalar) (members : List (Option String × Value))
    (frames : List Frame) :
    (memberTokens m).foldlM Expecting.step (.name members frames) =
      some (.afterMember (memberValue m :: members) frames) := by
  obtain ⟨name, _ | _⟩ := m <;> rfl

theorem run_membersTokens (m : String × Scalar) (rest : List (String × Scalar))
    (members : List (Option String × Value)) (frames : List Frame) :
    (membersTokens (m :: rest)).foldlM Expecting.step (.name members frames) =
      some (.afterMember (((m :: rest).map memberValue).reverse ++ members) frames) := by
  induction rest generalizing m members with
  | nil => exact run_memberTokens m members frames
  | cons next rest ih =>
      have comma : Expecting.step (.afterMember (memberValue m :: members) frames) .comma =
          some (.name (memberValue m :: members) frames) := rfl
      rw [membersTokens, foldlM_append_of_eq (run_memberTokens m members frames),
        foldlM_cons_of_eq comma, ih]
      simp

theorem parse?_of_objectText {members : List (String × Scalar)} {text : String}
    (written : ObjectText members text.toList) :
    parse? text = some (.object (members.map memberValue)) := by
  rw [parse?, tokens?_of_objectText written, Option.bind_some]
  cases members with
  | nil => rfl
  | cons m rest =>
      have opened : (membersTokens (m :: rest)).foldlM Expecting.step (.nameOrClose []) =
          (membersTokens (m :: rest)).foldlM Expecting.step (.name [] []) := by
        cases rest <;> rfl
      have begun : Expecting.step (.value []) .openBrace = some (.nameOrClose []) := rfl
      rw [ofTokens?, List.cons_append, foldlM_cons_of_eq begun,
        foldlM_append_of_eq (opened.trans (run_membersTokens m rest [] []))]
      simp [Expecting.step, Expecting.supply, Expecting.finish]

/-! ## Writing -/

theorem unitText_lowerDigits {n : Nat} (control : n < 0x20) :
    UnitText n ['0', '0', Nat.digitChar (n / 16), Nat.digitChar (n % 16)] := by
  have digit : ∀ d < 16, DigitText d (Nat.digitChar d) := by
    intro d small
    have table : ∀ d < 16, lowerDigits[d]? = some (Nat.digitChar d) := by decide
    exact .inl (table d small)
  have written := UnitText.digits (digit 0 (by decide)) (digit 0 (by decide))
    (digit (n / 16) (by omega)) (digit (n % 16) (by omega))
  have value : ((0 * 16 + 0) * 16 + n / 16) * 16 + n % 16 = n := by omega
  rwa [value] at written

theorem charText_quoteChar (c : Char) : CharText c (quoteChar c) := by
  by_cases short : c ∈ ['"', '\\', '\x08', '\x0C', '\n', '\r', '\t']
  · simp only [List.mem_cons, List.not_mem_nil, or_false] at short
    rcases short with rfl | rfl | rfl | rfl | rfl | rfl | rfl <;> exact .letter (by decide)
  · simp only [List.mem_cons, List.not_mem_nil, or_false, not_or] at short
    obtain ⟨noQuote, noSlash, noBack, noFeed, noLine, noReturn, noTab⟩ := short
    have written : quoteChar c = if c.toNat < 0x20 then numericEscape c.toNat else [c] := by
      simp [quoteChar, noQuote, noSlash, noBack, noFeed, noLine, noReturn, noTab]
    rw [written]
    split
    next control => exact .unit (unitText_lowerDigits control)
    next visible => exact .plain (Nat.not_lt.mp visible) noQuote noSlash

theorem charsText_quoteChar (chars : List Char) : CharsText chars (chars.flatMap quoteChar) := by
  induction chars with
  | nil => exact .nil
  | cons c rest ih => exact .cons (charText_quoteChar c) ih

theorem quotedText_quote (text : String) : QuotedText text (quote text) :=
  .quoted (charsText_quoteChar text.toList)

theorem scalarText_writeScalar (value : Scalar) : ScalarText value (writeScalar value) := by
  match value with
  | .text content => exact .text (quotedText_quote content)
  | .bool true => exact .yes
  | .bool false => exact .no

theorem blanks_nil : Blanks [] := by simp [Blanks]

theorem memberText_memberLine (m : String × Scalar) {after : List Char} (blank : Blanks after) :
    MemberText m (memberLine m ++ after) := by
  have indent : Blanks ['\n', ' ', ' '] := by simp [Blanks]
  have one : Blanks [' '] := by simp [Blanks]
  have written := MemberText.member (quotedText_quote m.1) (scalarText_writeScalar m.2) indent
    ⟨blanks_nil, one, blank⟩
  simpa [memberLine] using written

theorem membersText_memberLines (m : String × Scalar) (rest : List (String × Scalar)) :
    MembersText (m :: rest) (memberLines (m :: rest)) := by
  induction rest generalizing m with
  | nil => exact .last (memberText_memberLine m (by simp [Blanks]))
  | cons next rest ih =>
      have line := memberText_memberLine m blanks_nil
      rw [List.append_nil] at line
      exact .cons line (ih next)

theorem objectText_pretty (members : List (String × Scalar)) :
    ObjectText members (pretty members).toList := by
  rw [pretty, String.toList_ofList]
  cases members with
  | nil => exact .empty ⟨blanks_nil, blanks_nil, blanks_nil⟩
  | cons m rest =>
      have written := ObjectText.members (membersText_memberLines m rest) ⟨blanks_nil, blanks_nil⟩
      simpa using written

end Phrasebook.Json

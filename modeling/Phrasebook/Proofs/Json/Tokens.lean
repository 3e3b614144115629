import Mathlib.Data.List.Basic
import Phrasebook.Json.Syntax
import Phrasebook.Json.Token

/-!
# Tokens of written JSON

What the syntax allows is read part by part: characters by which a lexer that
stands between two tokens comes to stand there again, with certain tokens found,
can be put one behind the other (`Lexes.append`). A quoted text is such a part, in
whatever way its characters are written (`lexes_quoted`). A truth value is only
known to be complete at what stands behind it (`LexesBefore`).
-/

namespace Phrasebook.Json

/-! ## Machines that take one part after another -/

section Machines

variable {α σ : Type} {step : σ → α → Option σ} {s after : σ}

theorem foldlM_append_of_eq {front : List α} (run : front.foldlM step s = some after)
    (rest : List α) : (front ++ rest).foldlM step s = rest.foldlM step after := by
  rw [List.foldlM_append, run]
  rfl

theorem foldlM_cons_of_eq {first : α} (stepped : step s first = some after) (rest : List α) :
    (first :: rest).foldlM step s = rest.foldlM step after := by
  rw [List.foldlM_cons, stepped]
  rfl

end Machines

/-! ## Characters of a text -/

theorem hexValue?_of_digitText {value : Nat} {c : Char} (digit : DigitText value c) :
    hexValue? c = some value := by
  have lower : ∀ n < 16, (lowerDigits[n]?).bind hexValue? = some n := by decide
  have upper : ∀ n < 16, (upperDigits[n]?).bind hexValue? = some n := by decide
  rcases digit with there | there
  all_goals obtain ⟨small, -⟩ := List.getElem?_eq_some_iff.mp there
  · simpa [there] using lower value small
  · simpa [there] using upper value small

theorem run_unitText {n : Nat} {digits : List Char} (written : UnitText n digits)
    (pieces : List Piece) (tokens : List Token) :
    (['\\', 'u'] ++ digits).foldlM Lexer.step { state := .text pieces, tokens } =
      some { state := .text (.unit n :: pieces), tokens } := by
  cases written with
  | digits one two three four =>
      simp [Lexer.step, hexValue?_of_digitText one, hexValue?_of_digitText two,
        hexValue?_of_digitText three, hexValue?_of_digitText four]

theorem assemble_unit {n : Nat} (whole : ¬(0xD800 ≤ n ∧ n < 0xE000)) (rest : List Piece) :
    assemble (.unit n :: rest) = (assemble rest).map (Char.ofNat n :: ·) := by
  have noHigh : ¬(0xD800 ≤ n ∧ n < 0xDC00) := by omega
  have noLow : ¬(0xDC00 ≤ n ∧ n < 0xE000) := by omega
  cases rest with
  | nil => simp [assemble, whole]
  | cons next rest =>
      rw [assemble.eq_def]
      simp only [if_neg noHigh, if_neg noLow]

theorem assemble_pair (high low : Nat) (first : 0xD800 ≤ high ∧ high < 0xDC00)
    (second : 0xDC00 ≤ low ∧ low < 0xE000) (rest : List Piece) :
    assemble (.unit high :: .unit low :: rest) =
      (assemble rest).map
        (Char.ofNat (0x10000 + (high - 0xD800) * 0x400 + (low - 0xDC00)) :: ·) := by
  rw [assemble.eq_def]
  simp only [if_pos first, if_pos second]

/-- Within a text these characters are read as pieces that stand for the given ones. -/
def ReadAs (content chars : List Char) : Prop :=
  ∃ pieces, (∀ before tokens, chars.foldlM Lexer.step { state := .text before, tokens } =
      some { state := .text (pieces.reverse ++ before), tokens }) ∧
    ∀ rest, assemble (pieces ++ rest) = (assemble rest).map (content ++ ·)

theorem ReadAs.append {content more chars next : List Char} (first : ReadAs content chars)
    (second : ReadAs more next) : ReadAs (content ++ more) (chars ++ next) := by
  obtain ⟨pieces, run, stand⟩ := first
  obtain ⟨others, runOthers, standOthers⟩ := second
  refine ⟨pieces ++ others, ?_, ?_⟩
  · intro before tokens
    rw [foldlM_append_of_eq (run before tokens), runOthers, List.reverse_append,
      List.append_assoc]
  · intro rest
    rw [List.append_assoc, stand, standOthers, Option.map_map]
    simp [Function.comp_def]

theorem readAs_of_charText {c : Char} {chars : List Char} (written : CharText c chars) :
    ReadAs [c] chars := by
  cases written with
  | plain visible noQuote noSlash =>
      refine ⟨[.char c], ?_, fun rest => rfl⟩
      intro before tokens
      simp [Lexer.step, noQuote, noSlash, Nat.not_lt.mpr visible]
  | letter known =>
      refine ⟨[.char c], ?_, fun rest => rfl⟩
      intro before tokens
      simp only [escapeLetters, List.mem_cons, Prod.mk.injEq, List.not_mem_nil, or_false] at known
      rcases known with ⟨rfl, rfl⟩ | ⟨rfl, rfl⟩ | ⟨rfl, rfl⟩ | ⟨rfl, rfl⟩ | ⟨rfl, rfl⟩ |
        ⟨rfl, rfl⟩ | ⟨rfl, rfl⟩ | ⟨rfl, rfl⟩
      all_goals rfl
  | unit number =>
      refine ⟨[.unit c.toNat], run_unitText number, ?_⟩
      intro rest
      have whole : ¬(0xD800 ≤ c.toNat ∧ c.toNat < 0xE000) := by
        have valid := c.valid
        simp only [UInt32.isValidChar, Nat.isValidChar] at valid
        have same : c.val.toNat = c.toNat := rfl
        omega
      rw [List.singleton_append, assemble_unit whole, Char.ofNat_toNat]
      rfl
  | pair beyond first second =>
      have small : c.toNat < 0x110000 := by
        have valid := c.valid
        simp only [UInt32.isValidChar, Nat.isValidChar] at valid
        have same : c.val.toNat = c.toNat := rfl
        omega
      refine ⟨[.unit (0xD800 + (c.toNat - 0x10000) / 0x400),
        .unit (0xDC00 + (c.toNat - 0x10000) % 0x400)], ?_, ?_⟩
      · intro before tokens
        exact (foldlM_append_of_eq (run_unitText first before tokens) _).trans
          (run_unitText second _ tokens)
      · intro rest
        have value : 0x10000 + (0xD800 + (c.toNat - 0x10000) / 0x400 - 0xD800) * 0x400 +
            (0xDC00 + (c.toNat - 0x10000) % 0x400 - 0xDC00) = c.toNat := by omega
        have assembled := assemble_pair (0xD800 + (c.toNat - 0x10000) / 0x400)
          (0xDC00 + (c.toNat - 0x10000) % 0x400) (by omega) (by omega) rest
        rw [value, Char.ofNat_toNat] at assembled
        exact assembled

theorem readAs_of_charsText {content chars : List Char} (written : CharsText content chars) :
    ReadAs content chars := by
  induction written with
  | nil => exact ⟨[], fun _ _ => rfl, fun rest => by simp⟩
  | cons first others ih => exact (readAs_of_charText first).append ih

/-! ## Parts of written JSON -/

/-- From between two tokens, the characters are taken as these tokens, to the last of them. -/
def Lexes (chars : List Char) (found : List Token) : Prop :=
  ∀ before, chars.foldlM Lexer.step { tokens := before } =
    some { tokens := found.reverse ++ before }

theorem Lexes.append {chars more : List Char} {found next : List Token}
    (first : Lexes chars found) (second : Lexes more next) :
    Lexes (chars ++ more) (found ++ next) := by
  intro before
  rw [foldlM_append_of_eq (first before), second, List.reverse_append, List.append_assoc]

theorem Lexes.tokens?_eq {chars : List Char} {found : List Token} (lexes : Lexes chars found) :
    tokens? chars = some found := by
  have start := lexes []
  rw [tokens?, start, Option.bind_some, Lexer.finish, List.append_nil, List.reverse_reverse]

theorem lexes_quoted {content : String} {chars : List Char} (written : QuotedText content chars) :
    Lexes chars [.text (some content)] := by
  cases written with
  | quoted inside =>
      obtain ⟨pieces, run, stand⟩ := readAs_of_charsText inside
      intro before
      have opened : Lexer.step { tokens := before } '"' =
          some { state := .text [], tokens := before } := rfl
      have whole : assemble pieces = some content.toList := by
        have found := stand []
        rwa [List.append_nil, assemble, Option.map_some, List.append_nil] at found
      have token : Lexer.textToken (pieces.reverse ++ []) = .text (some content) := by
        rw [Lexer.textToken, List.append_nil, List.reverse_reverse, whole, Option.map_some,
          String.ofList_toList]
      rw [List.cons_append, foldlM_cons_of_eq opened, foldlM_append_of_eq (run [] before)]
      simp only [List.foldlM_cons, Lexer.step, if_true, token]
      rfl

theorem of_blank {c : Char} (blank : c ∈ [' ', '\t', '\n', '\r']) :
    isWordChar c = false ∧ Lexes [c] [] := by
  simp only [List.mem_cons, List.not_mem_nil, or_false] at blank
  rcases blank with rfl | rfl | rfl | rfl <;> exact ⟨rfl, fun _ => rfl⟩

theorem lexes_blanks {chars : List Char} (blanks : Blanks chars) : Lexes chars [] := by
  induction chars with
  | nil => exact fun _ => rfl
  | cons c rest ih =>
      obtain ⟨blank, others⟩ := List.forall_mem_cons.mp blanks
      exact (of_blank blank).2.append (ih others)

/-- These tokens are found if something else than a word goes on behind the characters. -/
def LexesBefore (chars : List Char) (found : List Token) : Prop :=
  ∀ c more next, isWordChar c = false → Lexes (c :: more) next →
    Lexes (chars ++ c :: more) (found ++ next)

theorem Lexes.before {chars : List Char} {found : List Token} (lexes : Lexes chars found) :
    LexesBefore chars found := fun _ _ _ _ behind => lexes.append behind

theorem Lexes.append_before {chars more : List Char} {found next : List Token}
    (first : Lexes chars found) (second : LexesBefore more next) :
    LexesBefore (chars ++ more) (found ++ next) := by
  intro c rest others noWord behind
  rw [List.append_assoc, List.append_assoc]
  exact first.append (second c rest others noWord behind)

theorem lexesBefore_word {chars : List Char} {token : Token}
    (run : ∀ before, chars.foldlM Lexer.step { tokens := before } =
      some { state := .word chars.reverse, tokens := before })
    (known : wordToken? chars = some token) : LexesBefore chars [token] := by
  intro c more next noWord behind before
  have stopped : Lexer.step { state := .word chars.reverse, tokens := before } c =
      Lexer.step { tokens := token :: before } c := by
    simp [Lexer.step, noWord, known]
  rw [foldlM_append_of_eq (run before), List.foldlM_cons, stopped, ← List.foldlM_cons, behind]
  simp

def Scalar.token : Scalar → Token
  | .text content => .text (some content)
  | .bool value => .bool value

theorem lexesBefore_scalar {value : Scalar} {chars : List Char}
    (written : ScalarText value chars) : LexesBefore chars [value.token] := by
  cases written with
  | text quoted => exact (lexes_quoted quoted).before
  | yes => exact lexesBefore_word (fun _ => rfl) rfl
  | no => exact lexesBefore_word (fun _ => rfl) rfl

theorem LexesBefore.append_blanks {chars blanks : List Char} {found : List Token}
    (lexes : LexesBefore chars found) (blank : Blanks blanks) :
    LexesBefore (chars ++ blanks) found := by
  intro c more next noWord behind
  rw [List.append_assoc]
  have passed := (lexes_blanks blank).append behind
  cases blanks with
  | nil => exact lexes c more next noWord behind
  | cons first rest =>
      exact lexes first _ next (of_blank (blank first List.mem_cons_self)).1 passed

/-! ## Objects -/

def memberTokens (m : String × Scalar) : List Token := [.text (some m.1), .colon, m.2.token]

def membersTokens : List (String × Scalar) → List Token
  | [] => []
  | [m] => memberTokens m
  | m :: next :: rest => memberTokens m ++ .comma :: membersTokens (next :: rest)

theorem lexes_colon : Lexes [':'] [.colon] := fun _ => rfl

theorem lexes_comma : Lexes [','] [.comma] := fun _ => rfl

theorem lexes_openBrace : Lexes ['{'] [.openBrace] := fun _ => rfl

theorem lexes_closeBrace : Lexes ['}'] [.closeBrace] := fun _ => rfl

theorem lexesBefore_member {m : String × Scalar} {chars : List Char}
    (written : MemberText m chars) : LexesBefore chars (memberTokens m) := by
  cases written with
  | member named valued blanks others =>
      obtain ⟨behind, ahead, after⟩ := others
      have key := ((lexes_blanks blanks).append (lexes_quoted named)).append (lexes_blanks behind)
      have assigned := (key.append lexes_colon).append (lexes_blanks ahead)
      exact (assigned.append_before (lexesBefore_scalar valued)).append_blanks after

theorem lexesBefore_members {members : List (String × Scalar)} {chars : List Char}
    (written : MembersText members chars) : LexesBefore chars (membersTokens members) := by
  induction written with
  | last single => exact lexesBefore_member single
  | @cons member members _ _ first others ih =>
      intro c more next noWord behind
      have rest := lexes_comma.append (ih c more next noWord behind)
      have whole := lexesBefore_member first ',' _ _ rfl rest
      cases others <;> simpa [membersTokens] using whole

theorem tokens?_of_objectText {members : List (String × Scalar)} {chars : List Char}
    (written : ObjectText members chars) :
    tokens? chars = some (.openBrace :: membersTokens members ++ [.closeBrace]) := by
  cases written with
  | empty blanks =>
      obtain ⟨before, within, after⟩ := blanks
      have opened := ((lexes_blanks before).append lexes_openBrace).append (lexes_blanks within)
      exact ((opened.append lexes_closeBrace).append (lexes_blanks after)).tokens?_eq
  | members inside blanks =>
      have opened := (lexes_blanks blanks.1).append lexes_openBrace
      have closed := lexes_closeBrace.append (lexes_blanks blanks.2)
      have whole := opened.append (lexesBefore_members inside '}' _ _ rfl closed)
      simpa using whole.tokens?_eq

end Phrasebook.Json

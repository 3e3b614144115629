/-!
# Tokens of JSON

A machine that takes one character at a time splits JSON text into tokens. It is
strict: only the four blanks of the standard stand between tokens, and a control
character in a text must be escaped.

A text may hold the escape of half a surrogate pair. Such a text is well formed
but stands for no sequence of characters, so its content is `none`.
-/

namespace Phrasebook.Json

inductive Token
  | openBrace
  | closeBrace
  | openBracket
  | closeBracket
  | comma
  | colon
  /-- A text; no content if a surrogate lacks its partner. -/
  | text (content : Option String)
  /-- A number, whose value is not kept. -/
  | number
  | bool (value : Bool)
  | null
  deriving DecidableEq, Repr

/-! ## Contents of texts -/

inductive Piece
  | char (c : Char)
  | unit (n : Nat)
  deriving DecidableEq, Repr

def assemble : List Piece → Option (List Char)
  | [] => some []
  | .char c :: rest => (assemble rest).map (c :: ·)
  | [.unit n] => if 0xD800 ≤ n ∧ n < 0xE000 then none else some [Char.ofNat n]
  | .unit n :: next :: rest =>
      if 0xD800 ≤ n ∧ n < 0xDC00 then
        match next with
        | .unit low =>
            if 0xDC00 ≤ low ∧ low < 0xE000 then
              (assemble rest).map
                (Char.ofNat (0x10000 + (n - 0xD800) * 0x400 + (low - 0xDC00)) :: ·)
            else none
        | .char _ => none
      else if 0xDC00 ≤ n ∧ n < 0xE000 then none
      else (assemble (next :: rest)).map (Char.ofNat n :: ·)

def shortEscape? : Char → Option Char
  | '"' => some '"'
  | '\\' => some '\\'
  | '/' => some '/'
  | 'b' => some '\x08'
  | 'f' => some '\x0C'
  | 'n' => some '\n'
  | 'r' => some '\r'
  | 't' => some '\t'
  | _ => none

def hexValue? (c : Char) : Option Nat :=
  if '0' ≤ c ∧ c ≤ '9' then some (c.toNat - '0'.toNat)
  else if 'a' ≤ c ∧ c ≤ 'f' then some (c.toNat - 'a'.toNat + 10)
  else if 'A' ≤ c ∧ c ≤ 'F' then some (c.toNat - 'A'.toNat + 10)
  else none

/-! ## Words -/

def isWordChar (c : Char) : Bool :=
  c.isAlphanum || c = '+' || c = '-' || c = '.'

def afterDigits? : List Char → Option (List Char)
  | [] => none
  | c :: rest => if c.isDigit then some (rest.dropWhile Char.isDigit) else none

/-- What is left after the digits before the point; a zero stands there alone. -/
def afterWhole? : List Char → Option (List Char)
  | '0' :: rest => some rest
  | chars => afterDigits? chars

def afterFraction? : List Char → Option (List Char)
  | '.' :: rest => afterDigits? rest
  | chars => some chars

def afterExponent? : List Char → Option (List Char)
  | c :: rest =>
      if c = 'e' ∨ c = 'E' then
        match rest with
        | '+' :: digits => afterDigits? digits
        | '-' :: digits => afterDigits? digits
        | digits => afterDigits? digits
      else some (c :: rest)
  | [] => some []

def unsigned : List Char → List Char
  | '-' :: rest => rest
  | chars => chars

def isNumber (chars : List Char) : Bool :=
  ((afterWhole? (unsigned chars)).bind fun rest =>
    (afterFraction? rest).bind afterExponent?) == some []

def wordToken? (chars : List Char) : Option Token :=
  if chars = ['t', 'r', 'u', 'e'] then some (.bool true)
  else if chars = ['f', 'a', 'l', 's', 'e'] then some (.bool false)
  else if chars = ['n', 'u', 'l', 'l'] then some .null
  else if isNumber chars then some .number
  else none

/-! ## The machine -/

inductive LexState
  | between
  /-- In a word; its characters so far, the latest first. -/
  | word (chars : List Char)
  /-- In a text; its pieces so far, the latest first. -/
  | text (pieces : List Piece)
  /-- Behind a backslash in a text. -/
  | escape (pieces : List Piece)
  /-- In a numeric escape: how many digits are still to come, and the value so far. -/
  | hex (pieces : List Piece) (left : Nat) (value : Nat)
  deriving DecidableEq, Repr

/-- A lexer under way: its state and the tokens so far, the latest first. -/
structure Lexer where
  state : LexState := .between
  tokens : List Token := []
  deriving DecidableEq, Repr

namespace Lexer

def isBlank (c : Char) : Bool := c = ' ' || c = '\t' || c = '\n' || c = '\r'

def stepBetween (tokens : List Token) (c : Char) : Option Lexer :=
  if isBlank c then some { tokens }
  else if c = '{' then some { tokens := .openBrace :: tokens }
  else if c = '}' then some { tokens := .closeBrace :: tokens }
  else if c = '[' then some { tokens := .openBracket :: tokens }
  else if c = ']' then some { tokens := .closeBracket :: tokens }
  else if c = ',' then some { tokens := .comma :: tokens }
  else if c = ':' then some { tokens := .colon :: tokens }
  else if c = '"' then some { state := .text [], tokens }
  else if isWordChar c then some { state := .word [c], tokens }
  else none

def textToken (pieces : List Piece) : Token :=
  .text ((assemble pieces.reverse).map String.ofList)

def step (lexer : Lexer) (c : Char) : Option Lexer :=
  match lexer.state with
  | .between => stepBetween lexer.tokens c
  | .word chars =>
      if isWordChar c then some { lexer with state := .word (c :: chars) }
      else (wordToken? chars.reverse).bind fun token => stepBetween (token :: lexer.tokens) c
  | .text pieces =>
      if c = '"' then some { tokens := textToken pieces :: lexer.tokens }
      else if c = '\\' then some { lexer with state := .escape pieces }
      else if c.toNat < 0x20 then none
      else some { lexer with state := .text (.char c :: pieces) }
  | .escape pieces =>
      if c = 'u' then some { lexer with state := .hex pieces 4 0 }
      else (shortEscape? c).map fun char => { lexer with state := .text (.char char :: pieces) }
  | .hex pieces left value =>
      (hexValue? c).map fun digit =>
        let value := value * 16 + digit
        if left ≤ 1 then { lexer with state := .text (.unit value :: pieces) }
        else { lexer with state := .hex pieces (left - 1) value }

def finish (lexer : Lexer) : Option (List Token) :=
  match lexer.state with
  | .between => some lexer.tokens.reverse
  | .word chars => (wordToken? chars.reverse).map fun token => (token :: lexer.tokens).reverse
  | _ => none

end Lexer

def tokens? (chars : List Char) : Option (List Token) :=
  (chars.foldlM Lexer.step {}).bind Lexer.finish

end Phrasebook.Json

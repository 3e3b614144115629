/-!
# The syntax of JSON objects

How an object of texts and truth values may be written. Blanks may stand between
its parts, and every character of a text may be written in several ways: as it
is, unless that is excluded, by a letter behind a backslash, or by the number of
its UTF-16 units.
-/

namespace Phrasebook.Json

inductive Scalar
  | text (content : String)
  | bool (value : Bool)
  deriving DecidableEq, Repr

/-- The letters behind a backslash, with the characters that they stand for. -/
def escapeLetters : List (Char × Char) :=
  [('"', '"'), ('\\', '\\'), ('/', '/'), ('b', '\x08'), ('f', '\x0C'), ('n', '\n'), ('r', '\r'),
    ('t', '\t')]

def lowerDigits : List Char :=
  ['0', '1', '2', '3', '4', '5', '6', '7', '8', '9', 'a', 'b', 'c', 'd', 'e', 'f']

def upperDigits : List Char :=
  ['0', '1', '2', '3', '4', '5', '6', '7', '8', '9', 'A', 'B', 'C', 'D', 'E', 'F']

def DigitText (value : Nat) (c : Char) : Prop :=
  lowerDigits[value]? = some c ∨ upperDigits[value]? = some c

inductive UnitText : Nat → List Char → Prop
  | digits {a b c d : Nat} {first second third fourth : Char} (one : DigitText a first)
      (two : DigitText b second) (three : DigitText c third) (four : DigitText d fourth) :
      UnitText (((a * 16 + b) * 16 + c) * 16 + d) [first, second, third, fourth]

inductive CharText : Char → List Char → Prop
  | plain {c : Char} (visible : 0x20 ≤ c.toNat) (noQuote : c ≠ '"') (noSlash : c ≠ '\\') :
      CharText c [c]
  | letter {c sign : Char} (known : (sign, c) ∈ escapeLetters) : CharText c ['\\', sign]
  | unit {c : Char} {digits : List Char} (number : UnitText c.toNat digits) :
      CharText c (['\\', 'u'] ++ digits)
  /-- A surrogate pair. -/
  | pair {c : Char} {high low : List Char} (beyond : 0x10000 ≤ c.toNat)
      (first : UnitText (0xD800 + (c.toNat - 0x10000) / 0x400) high)
      (second : UnitText (0xDC00 + (c.toNat - 0x10000) % 0x400) low) :
      CharText c (['\\', 'u'] ++ high ++ (['\\', 'u'] ++ low))

inductive CharsText : List Char → List Char → Prop
  | nil : CharsText [] []
  | cons {c : Char} {cs written more : List Char} (first : CharText c written)
      (others : CharsText cs more) : CharsText (c :: cs) (written ++ more)

inductive QuotedText (content : String) : List Char → Prop
  | quoted {written : List Char} (chars : CharsText content.toList written) :
      QuotedText content ('"' :: written ++ ['"'])

inductive ScalarText : Scalar → List Char → Prop
  | text {content : String} {written : List Char} (quoted : QuotedText content written) :
      ScalarText (.text content) written
  | yes : ScalarText (.bool true) ['t', 'r', 'u', 'e']
  | no : ScalarText (.bool false) ['f', 'a', 'l', 's', 'e']

def Blanks (chars : List Char) : Prop := ∀ c ∈ chars, c ∈ [' ', '\t', '\n', '\r']

inductive MemberText : String × Scalar → List Char → Prop
  | member {name : String} {value : Scalar} {before behind ahead after key written : List Char}
      (named : QuotedText name key) (valued : ScalarText value written) (blanks : Blanks before)
      (others : Blanks behind ∧ Blanks ahead ∧ Blanks after) :
      MemberText (name, value) (before ++ key ++ behind ++ [':'] ++ ahead ++ written ++ after)

inductive MembersText : List (String × Scalar) → List Char → Prop
  | last {member : String × Scalar} {written : List Char} (single : MemberText member written) :
      MembersText [member] written
  | cons {member : String × Scalar} {members : List (String × Scalar)} {written more : List Char}
      (first : MemberText member written) (others : MembersText members more) :
      MembersText (member :: members) (written ++ [','] ++ more)

inductive ObjectText : List (String × Scalar) → List Char → Prop
  | empty {before within after : List Char}
      (blanks : Blanks before ∧ Blanks within ∧ Blanks after) :
      ObjectText [] (before ++ ['{'] ++ within ++ ['}'] ++ after)
  | members {found : List (String × Scalar)} {before written after : List Char}
      (inside : MembersText found written) (blanks : Blanks before ∧ Blanks after) :
      ObjectText found (before ++ ['{'] ++ written ++ ['}'] ++ after)

end Phrasebook.Json

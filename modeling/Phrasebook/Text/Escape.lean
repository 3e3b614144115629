import Phrasebook.Text.Latin

/-!
# Escaped text

The notation that lets text stand between double quotes on a single line. A
backslash and the byte after it write one character: `\t` a tab, `\n` a newline,
and any other byte itself. A backslash that ends the bytes writes nothing.
-/

namespace Phrasebook.Text

open Bytes

def escapedChar (b : UInt8) : Char :=
  if b = 0x74 then '\t' else if b = 0x6E then '\n' else widenByte b

/-- Reads escaped text; the flag tells whether a backslash came just before. -/
def unescapeFrom : Bool → List UInt8 → List Char
  | _, [] => []
  | true, b :: rest => escapedChar b :: unescapeFrom false rest
  | false, b :: rest =>
      if b = backslash then unescapeFrom true rest
      else widenByte b :: unescapeFrom false rest

def unescape (bytes : List UInt8) : String := String.ofList (unescapeFrom false bytes)

/-- The escaped form of one character: backslash, double quote, tab and newline take two bytes. -/
def escapeChar : Char → List UInt8
  | '\\' => [backslash, backslash]
  | '"' => [backslash, quote]
  | '\t' => [backslash, 0x74]
  | '\n' => [backslash, 0x6E]
  | c => [narrowChar c]

/-- Text in escaped form, with `?` for each character that has no single byte. -/
def escape (text : String) : List UInt8 := text.toList.flatMap escapeChar

@[simp] theorem toList_unescape (bytes : List UInt8) :
    (unescape bytes).toList = unescapeFrom false bytes := by
  simp [unescape]

end Phrasebook.Text

/-!
# Bytes with a meaning of their own

The bytes that the plain format and the escape notation single out, and the
classes of bytes that both use: white space, and the characters of a speech cue.
-/

namespace Phrasebook.Bytes

abbrev newline : UInt8 := 0x0A

abbrev tab : UInt8 := 0x09

/-- The one kind of white space that quoted text keeps. -/
abbrev space : UInt8 := 0x20

abbrev quote : UInt8 := 0x22

abbrev backslash : UInt8 := 0x5C

abbrev equals : UInt8 := 0x3D

abbrev slash : UInt8 := 0x2F

abbrev questionMark : UInt8 := 0x3F

/-- Ends quoted text on the spot, wherever it stands. -/
abbrev sentinel : UInt8 := 0xFF

/-- White space: space, tab, newline, vertical tab, form feed, carriage return. -/
def isSpace (b : UInt8) : Bool :=
  b = space || b = tab || b = newline || b = 0x0B || b = 0x0C || b = 0x0D

def isDigit (b : UInt8) : Bool := 0x30 ≤ b && b ≤ 0x39

def isCueByte (b : UInt8) : Bool :=
  (0x41 ≤ b && b ≤ 0x5A) || (0x61 ≤ b && b ≤ 0x7A) || isDigit b || b = 0x5F

/-- ASCII case folding: `A` to `Z` become `a` to `z`, all else stays. -/
def foldCase (b : UInt8) : UInt8 :=
  if 0x41 ≤ b && b ≤ 0x5A then b + 0x20 else b

end Phrasebook.Bytes

import Phrasebook.Bytes.Marks

/-!
# Normal spacing

Two normal forms: bytes without white space at their edges, and display text in
which a space stands only between two characters that are neither space, newline
nor tab.
-/

namespace Phrasebook.Text

open Bytes

def trimEdges (bytes : List UInt8) : List UInt8 :=
  ((bytes.dropWhile isSpace).reverse.dropWhile isSpace).reverse

/-- A newline or a tab: it leaves no room for a space beside it. -/
def isBreak (c : Char) : Bool := c = '\n' || c = '\t'

/-- A space, a newline or a tab: dropped at the very beginning of a text. -/
def isBlank (c : Char) : Bool := c = ' ' || isBreak c

/-- What stands before the next character of a text that is being squeezed. -/
inductive Margin
  /-- The beginning or a break: a space would be dropped. -/
  | afterBreak
  /-- Visible text: a space may follow. -/
  | afterText
  /-- Visible text and at least one space, which is written only if visible text follows. -/
  | spaceHeld
  deriving DecidableEq, Repr

def squeezeFrom : Margin → List Char → List Char
  | _, [] => []
  | margin, c :: rest =>
      if c = ' ' then
        match margin with
        | .afterBreak => squeezeFrom .afterBreak rest
        | _ => squeezeFrom .spaceHeld rest
      else if isBreak c then c :: squeezeFrom .afterBreak rest
      else
        match margin with
        | .spaceHeld => ' ' :: c :: squeezeFrom .afterText rest
        | _ => c :: squeezeFrom .afterText rest

/-- Squeezes a whole text: blanks at its beginning vanish, breaks included. -/
def squeezeChars (chars : List Char) : List Char :=
  squeezeFrom .afterBreak (chars.dropWhile isBlank)

def squeeze (text : String) : String := String.ofList (squeezeChars text.toList)

@[simp] theorem toList_squeeze (text : String) :
    (squeeze text).toList = squeezeChars text.toList := by
  simp [squeeze]

end Phrasebook.Text

import Phrasebook.Bytes.Marks

/-!
# Single-byte text

A byte stands for the character of the same code point. Widening turns bytes
into text and loses nothing; narrowing goes back and writes a question mark for
each character above U+00FF.
-/

namespace Phrasebook.Text

open Bytes

def widenByte (b : UInt8) : Char := Char.ofUInt8 b

/-- The byte of a character up to U+00FF, and `?` for any other. -/
def narrowChar (c : Char) : UInt8 :=
  if c.toNat < 256 then c.toUInt8 else questionMark

def widen (bytes : List UInt8) : String := String.ofList (bytes.map widenByte)

def narrow (text : String) : List UInt8 := text.toList.map narrowChar

@[simp] theorem toNat_widenByte (b : UInt8) : (widenByte b).toNat = b.toNat := rfl

@[simp] theorem narrowChar_widenByte (b : UInt8) : narrowChar (widenByte b) = b := by
  have bound : (widenByte b).toNat < 256 := by simpa using b.toNat_lt
  simp only [narrowChar, bound, if_true]
  have low : (widenByte b).toUInt8.toNat = (widenByte b).toNat % 256 := rfl
  apply UInt8.toNat_inj.mp
  rw [low, toNat_widenByte]
  exact Nat.mod_eq_of_lt b.toNat_lt

@[simp] theorem toList_widen (bytes : List UInt8) :
    (widen bytes).toList = bytes.map widenByte := by
  simp [widen]

@[simp] theorem narrow_widen (bytes : List UInt8) : narrow (widen bytes) = bytes := by
  simp [narrow, List.map_map, Function.comp_def]

@[simp] theorem length_widen (bytes : List UInt8) : (widen bytes).length = bytes.length := by
  simp [← String.length_toList]

@[simp] theorem length_narrow (text : String) : (narrow text).length = text.length := by
  simp [narrow, String.length_toList]

end Phrasebook.Text

import Phrasebook.Bytes.Marks

/-!
# Text in 16-bit units

The compiled format stores UTF-16 text with every bit inverted, each unit as two
bytes, the low one first. Text ends before the first unit that is zero as stored
or zero once inverted. A surrogate without its partner reads as U+FFFD.
-/

namespace Phrasebook.Text

def isHighSurrogate (u : UInt16) : Bool := 0xD800 ≤ u && u < 0xDC00

def isLowSurrogate (u : UInt16) : Bool := 0xDC00 ≤ u && u < 0xE000

def replacement : Char := '\uFFFD'

def pairChar (high low : UInt16) : Char :=
  Char.ofNat (0x10000 + (high.toNat - 0xD800) * 0x400 + (low.toNat - 0xDC00))

def unitChar (u : UInt16) : Char :=
  if isHighSurrogate u || isLowSurrogate u then replacement else Char.ofNat u.toNat

/-- Reads UTF-16; a unit that fails to pair is read on its own. -/
def decodeUnits : List UInt16 → List Char
  | [] => []
  | [u] => [unitChar u]
  | u :: v :: rest =>
      if isHighSurrogate u && isLowSurrogate v then pairChar u v :: decodeUnits rest
      else unitChar u :: decodeUnits (v :: rest)

def charUnits (c : Char) : List UInt16 :=
  if c.toNat < 0x10000 then [c.toNat.toUInt16]
  else
    let n := c.toNat - 0x10000
    [(0xD800 + n / 0x400).toUInt16, (0xDC00 + n % 0x400).toUInt16]

def encodeUnits (text : String) : List UInt16 := text.toList.flatMap charUnits

/-- Inverts every bit: a unit as stored from a unit of text, and back. -/
def invertUnit (u : UInt16) : UInt16 := ~~~u

/-- A stored unit that is part of the text; zero, stored or inverted, ends it. -/
def isTextUnit (stored : UInt16) : Bool := stored ≠ 0 && stored ≠ 0xFFFF

def decodeStored (stored : List UInt16) : String :=
  String.ofList (decodeUnits ((stored.takeWhile isTextUnit).map invertUnit))

/-- A text as stored units, without a terminator. -/
def encodeStored (text : String) : List UInt16 := (encodeUnits text).map invertUnit

/-- Units from bytes, low byte first; an odd byte at the end is ignored. -/
def unitsOfBytes : List UInt8 → List UInt16
  | low :: high :: rest =>
      UInt16.ofNat (low.toNat + 0x100 * high.toNat) :: unitsOfBytes rest
  | _ => []

def unitBytes (u : UInt16) : List UInt8 :=
  [UInt8.ofNat u.toNat, UInt8.ofNat (u.toNat / 0x100)]

def bytesOfUnits (units : List UInt16) : List UInt8 := units.flatMap unitBytes

@[simp] theorem invertUnit_invertUnit (u : UInt16) : invertUnit (invertUnit u) = u := by
  simp [invertUnit]

theorem unitsOfBytes_unitBytes_append (u : UInt16) (rest : List UInt8) :
    unitsOfBytes (unitBytes u ++ rest) = u :: unitsOfBytes rest := by
  have bound := u.toNat_lt
  simp only [unitBytes, List.cons_append, List.nil_append, unitsOfBytes, List.cons.injEq, and_true]
  apply UInt16.toNat_inj.mp
  simp only [UInt16.toNat_ofNat', UInt8.toNat_ofNat']
  omega

@[simp] theorem unitsOfBytes_bytesOfUnits (units : List UInt16) :
    unitsOfBytes (bytesOfUnits units) = units := by
  induction units with
  | nil => rfl
  | cons u rest ih =>
      rw [bytesOfUnits, List.flatMap_cons, unitsOfBytes_unitBytes_append, ← bytesOfUnits, ih]

@[simp] theorem length_bytesOfUnits (units : List UInt16) :
    (bytesOfUnits units).length = 2 * units.length := by
  induction units with
  | nil => rfl
  | cons u rest ih =>
      rw [bytesOfUnits, List.flatMap_cons, List.length_append, ← bytesOfUnits, ih]
      simp only [unitBytes, List.length_cons, List.length_nil]
      omega

end Phrasebook.Text

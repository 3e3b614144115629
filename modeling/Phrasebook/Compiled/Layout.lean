import Phrasebook.Bytes.LittleEndian
import Phrasebook.Text.Units

/-!
# Layout of a compiled file

A compiled file is a header followed by blocks. A block holds a label and any
number of variants; a variant holds text in stored units and may hold a speech
cue. Each part starts with a mark of four bytes, and each length stands before
what it measures.
-/

namespace Phrasebook.Compiled

open Bytes

/-- Starts a compiled file: ` FSC`. -/
def fileMark : List UInt8 := [0x20, 0x46, 0x53, 0x43]

/-- Starts a block: ` LBL`. -/
def labelMark : List UInt8 := [0x20, 0x4C, 0x42, 0x4C]

/-- Starts a variant without a cue: ` RTS`. -/
def textMark : List UInt8 := [0x20, 0x52, 0x54, 0x53]

/-- Starts a variant with a cue: `WRTS`. -/
def cueMark : List UInt8 := [0x57, 0x52, 0x54, 0x53]

def markSize : Nat := 4

def headerSize : Nat := 24

structure Header where
  version : UInt32
  labelCount : UInt32
  stringCount : UInt32
  /-- A word without a meaning. -/
  reserved : UInt32 := 0
  languageId : UInt32
  deriving DecidableEq, Repr

/-- The language that counts: the first version of the layout did not name one. -/
def Header.effectiveLanguageId (header : Header) : UInt32 :=
  if 1 < header.version then header.languageId else 0

def Header.toBytes (header : Header) : List UInt8 :=
  fileMark ++ wordBytes header.version ++ wordBytes header.labelCount ++
    wordBytes header.stringCount ++ wordBytes header.reserved ++ wordBytes header.languageId

structure Variant where
  units : List UInt16
  cue : Option (List UInt8)
  deriving DecidableEq, Repr

def lengthBytes (n : Nat) : List UInt8 := wordBytes (UInt32.ofNat n)

def Variant.toBytes (v : Variant) : List UInt8 :=
  match v.cue with
  | none => textMark ++ lengthBytes v.units.length ++ Text.bytesOfUnits v.units
  | some cue =>
      cueMark ++ lengthBytes v.units.length ++ Text.bytesOfUnits v.units ++
        lengthBytes cue.length ++ cue

structure Block where
  label : List UInt8
  variants : List Variant
  deriving DecidableEq, Repr

def Block.toBytes (block : Block) : List UInt8 :=
  labelMark ++ lengthBytes block.variants.length ++ lengthBytes block.label.length ++
    block.label ++ block.variants.flatMap Variant.toBytes

end Phrasebook.Compiled

import Phrasebook.Compiled.Load
import Phrasebook.Compiled.Printer
import Phrasebook.Files.Service
import Phrasebook.Path
import Phrasebook.Plain.Block
import Phrasebook.Plain.Printer

/-!
# The two formats of a file

Everything that depends on whether a file is plain or compiled, in one place.
-/

namespace Phrasebook

inductive Format
  /-- Lines of text, made by hand. -/
  | plain
  /-- Tagged binary data, made for loading. -/
  | compiled
  deriving DecidableEq, Repr

namespace Format

def ofPath (path : String) : Format := if Path.isCompiled path then compiled else plain

def openMode : Format → OpenMode
  | plain => .text
  | compiled => .binary

def load : Format → Bytes.Source → Except LoadError Listing
  | plain => Plain.load
  | compiled => Compiled.load

/-- How many entries to expect, from a first look at a file; the header of a compiled one tells. -/
def expectedCount : Format → Bytes.Source → Except LoadError Nat
  | plain => Plain.count
  | compiled => fun source => (Compiled.loadHeader source).map fun header => header.labelCount.toNat

def print : Format → List Entry → UInt32 → List UInt8
  | plain => fun entries _ => Plain.print entries
  | compiled => Compiled.print

end Format

end Phrasebook

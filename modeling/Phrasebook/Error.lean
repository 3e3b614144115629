import Phrasebook.Bytes.LittleEndian
import Phrasebook.Bytes.Source

/-!
# Reasons why a file cannot be loaded

Each reason is a cause with the facts that belong to it; `LoadError.message` is
the one place where it is put into words.
-/

namespace Phrasebook

open Bytes

inductive LoadError
  | io (fault : Fault)
  | fileNotFound (path : String)
  /-- A compiled file starts with these four bytes instead of its own mark. -/
  | badMagic (found : List UInt8)
  /-- A text under the label has a tag of no known kind. -/
  | unknownTag (label : String) (tag : UInt32)
  /-- A compiled file ends within the named part. -/
  | truncated (part : String)
  /-- A plain file ends within the block of the label. -/
  | missingEnd (label : String)
  /-- There is nothing to serve. -/
  | emptyTable
  /-- Settings are not in the form that they are saved in. -/
  | malformedSettings
  deriving DecidableEq, Repr

/-- The last hexadecimal digits of a number, lower case, as many as asked for. -/
def hexDigits : Nat → Nat → List Char
  | 0, _ => []
  | width + 1, n => hexDigits width (n / 16) ++ [Nat.digitChar (n % 16)]

def bracketed (numbers : List Nat) : String :=
  "[" ++ ", ".intercalate (numbers.map Nat.repr) ++ "]"

namespace LoadError

def message : LoadError → String
  | io fault => "IO error: " ++ fault.text
  | fileNotFound path => "file not found: " ++ path
  | badMagic found =>
      "invalid CSF magic: expected \" FSC\", found " ++ bracketed (found.map UInt8.toNat)
  | unknownTag label tag =>
      "unknown string tag 0x" ++ String.ofList (hexDigits 8 tag.toNat) ++
        " under label '" ++ label ++ "'"
  | truncated part => "truncated record: " ++ part
  | missingEnd label => "missing END for label '" ++ label ++ "'"
  | emptyTable => "string table is empty"
  | malformedSettings => "config error"

end LoadError

end Phrasebook

import Phrasebook.CommandLine.Arguments

/-!
# Commands

The commands of the tool and how they are written on a command line. A path is
never empty; a label, a language or the path of a map may be.
-/

namespace Phrasebook.CommandLine

inductive Command
  | dump (path : String) (sorted : Bool) (limit : Option Nat)
  | get (path label : String)
  | list (path start : String)
  | convert (source destination : String) (languageId : UInt32)
  | stats (paths : List String)
  | fetch (root : String) (settings language map : Option String) (labels : List String)
  deriving DecidableEq, Repr

/-! ## Values -/

def natOfDigits? (digits : List Char) : Option Nat :=
  if digits ≠ [] ∧ digits.all Char.isDigit then
    some (digits.foldl (fun n c => 10 * n + (c.toNat - '0'.toNat)) 0)
  else none

/-- A count, which may have a plus sign and fits into 64 bits. -/
def count? (value : String) : Option Nat :=
  let digits := match value.toList with
    | '+' :: digits => digits
    | digits => digits
  (natOfDigits? digits).bind fun n => if n < UInt64.size then some n else none

def word? (value : String) : Option UInt32 :=
  match value.toList with
  | '-' :: digits => (natOfDigits? digits).bind fun n => if n = 0 then some 0 else none
  | '+' :: digits => (natOfDigits? digits).bind fun n =>
      if n < UInt32.size then some (UInt32.ofNat n) else none
  | digits => (natOfDigits? digits).bind fun n =>
      if n < UInt32.size then some (UInt32.ofNat n) else none

def path? (value : String) : Option String := if value = "" then none else some value

def optional? (decode : String → Option α) (value : Option String) : Option (Option α) :=
  match value with
  | none => some none
  | some value => (decode value).map some

/-! ## Commands -/

def readDump? (words : List String) : Option Command := do
  let arguments ← Arguments.read?
    [{ name := "sorted", letter := some 's', takesValue := false },
      { name := "limit", letter := some 'l' }] words
  let limit ← optional? count? (arguments.value? "limit")
  match arguments.plain with
  | [path] => return .dump (← path? path) (arguments.value? "sorted").isSome limit
  | _ => none

def readGet? (words : List String) : Option Command := do
  let arguments ← Arguments.read? [] words
  match arguments.plain with
  | [path, label] => return .get (← path? path) label
  | _ => none

def readList? (words : List String) : Option Command := do
  let arguments ← Arguments.read? [] words
  match arguments.plain with
  | [path, start] => return .list (← path? path) start
  | _ => none

def readConvert? (words : List String) : Option Command := do
  let arguments ← Arguments.read?
    [{ name := "source", letter := some 's' }, { name := "destination", letter := some 'd' },
      { name := "language-id" }] words
  let source ← arguments.value? "source"
  let destination ← arguments.value? "destination"
  let languageId ← optional? word? (arguments.value? "language-id")
  match arguments.plain with
  | [] => return .convert (← path? source) (← path? destination) (languageId.getD 0)
  | _ => none

def readStats? (words : List String) : Option Command := do
  let arguments ← Arguments.read? [] words
  match arguments.plain with
  | [] => none
  | paths => return .stats (← paths.mapM path?)

def readFetch? (words : List String) : Option Command := do
  let arguments ← Arguments.read?
    [{ name := "root", letter := some 'r' }, { name := "config", letter := some 'c' },
      { name := "language" }, { name := "map", letter := some 'm' }] words
  let root ← optional? path? (arguments.value? "root")
  let settings ← optional? path? (arguments.value? "config")
  match arguments.plain with
  | [] => none
  | labels =>
      return .fetch (root.getD ".") settings (arguments.value? "language")
        (arguments.value? "map") labels

def Command.read? : List String → Option Command
  | [] => none
  | name :: words =>
      if name = "dump" then readDump? words
      else if name = "get" then readGet? words
      else if name = "prefix" then readList? words
      else if name = "convert" then readConvert? words
      else if name = "stats" then readStats? words
      else if name = "fetch" then readFetch? words
      else none

end Phrasebook.CommandLine

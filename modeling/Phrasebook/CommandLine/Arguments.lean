/-!
# Arguments of a command

Options may be written `--name value`, `--name=value`, `-n value`, `-nvalue` or
`-n=value`, and several short ones in one word. They may stand between other
arguments. Two dashes on their own make everything behind them an ordinary
argument; one dash on its own is an ordinary argument or a value.
-/

namespace Phrasebook.CommandLine

structure OptionSpec where
  name : String
  letter : Option Char := none
  takesValue : Bool := true
  deriving DecidableEq, Repr

inductive Word
  | argument
  /-- Options with their values, and one that takes the next word as its value. -/
  | options (given : List (String × String)) (awaiting : Option String)
  deriving DecidableEq, Repr

structure Arguments where
  plain : List String := []
  /-- The options; one without a value has an empty one. -/
  options : List (String × String) := []
  deriving DecidableEq, Repr

def mayBeValue (word : String) : Bool := word = "-" || word.toList.head? ≠ some '-'

def readLong? (specs : List OptionSpec) (chars : List Char) : Option Word :=
  let name := String.ofList (chars.takeWhile (· != '='))
  match specs.find? fun spec => spec.name == name with
  | none => none
  | some spec =>
      match spec.takesValue, chars.dropWhile (· != '=') with
      | true, [] => some (.options [] (some name))
      | true, _ :: value => some (.options [(name, String.ofList value)] none)
      | false, [] => some (.options [(name, "")] none)
      | false, _ => none

def readShort? (specs : List OptionSpec) : List Char → Option Word
  | [] => some (.options [] none)
  | letter :: rest =>
      match specs.find? fun spec => spec.letter == some letter with
      | none => none
      | some spec =>
          if spec.takesValue then
            match rest with
            | [] => some (.options [] (some spec.name))
            | '=' :: value => some (.options [(spec.name, String.ofList value)] none)
            | value => some (.options [(spec.name, String.ofList value)] none)
          else
            match readShort? specs rest with
            | some (.options given awaiting) => some (.options ((spec.name, "") :: given) awaiting)
            | _ => none

def readWord? (specs : List OptionSpec) (word : String) : Option Word :=
  match word.toList with
  | '-' :: '-' :: chars => readLong? specs chars
  | '-' :: letter :: letters => readShort? specs (letter :: letters)
  | _ => some .argument

/-- Reads words, the first of which may be awaited as a value. -/
def readWords? (specs : List OptionSpec) (awaiting : Option String) :
    List String → Option Arguments
  | [] => if awaiting.isNone then some {} else none
  | word :: rest =>
      match awaiting with
      | some name =>
          if mayBeValue word then
            (readWords? specs none rest).map fun found =>
              { found with options := (name, word) :: found.options }
          else none
      | none =>
          if word = "--" then some { plain := rest }
          else
            match readWord? specs word with
            | none => none
            | some .argument =>
                (readWords? specs none rest).map fun found =>
                  { found with plain := word :: found.plain }
            | some (.options given awaiting) =>
                (readWords? specs awaiting rest).map fun found =>
                  { found with options := given ++ found.options }

/-- The arguments that words give; no option may come twice. -/
def Arguments.read? (specs : List OptionSpec) (words : List String) : Option Arguments :=
  (readWords? specs none words).bind fun found =>
    if (found.options.map Prod.fst).Nodup then some found else none

def Arguments.value? (arguments : Arguments) (name : String) : Option String :=
  arguments.options.lookup name

end Phrasebook.CommandLine

/-!
# Paths

Paths inside a game may use either slash. A path is resolved under a root by
joining its non-empty components, so that it never leaves the root by starting
with a slash.
-/

namespace Phrasebook.Path

def normalize (path : String) : String :=
  String.ofList (path.toList.map fun c => if c = '\\' then '/' else c)

def pieces : List Char → List (List Char)
  | [] => [[]]
  | c :: rest =>
      if c = '/' then [] :: pieces rest
      else
        match pieces rest with
        | [] => [[c]]
        | piece :: others => (c :: piece) :: others

def components (path : String) : List String :=
  ((pieces path.toList).filter fun piece => !piece.isEmpty).map String.ofList

/-- A path with one more component: a slash comes between unless one is there already. -/
def join (path component : String) : String :=
  if path = "" then component
  else if path.toList.getLast? = some '/' then path ++ component
  else path ++ "/" ++ component

def resolve (root path : String) : String := (components (normalize path)).foldl join root

/--
The name of the file that a path leads to: its last component, where a single
dot does not count and two dots are no name.
-/
def fileName? (path : String) : Option String :=
  match ((components path).filter (· != ".")).getLast? with
  | some name => if name = ".." then none else some name
  | none => none

/-- What follows the last dot of a file name that has something before that dot. -/
def extension? (path : String) : Option String :=
  match fileName? path with
  | none => none
  | some name =>
      let reversed := name.toList.reverse
      match reversed.dropWhile (· != '.') with
      | _ :: _ :: _ => some (String.ofList (reversed.takeWhile (· != '.')).reverse)
      | _ => none

def isCompiled (path : String) : Bool :=
  match extension? path with
  | none => false
  | some extension => extension.toList.map Char.toLower == ['c', 's', 'f']

end Phrasebook.Path

import Phrasebook.Files.Service
import Phrasebook.Files.System
import Phrasebook.Path

/-!
# Folders

A disk as seen from a working directory: files and directories at places. Paths
are walked as a Unix system walks them, so every directory on the way has to be
there, even one that is left again at once. A directory can be opened, but
reading from it fails.

A place may be an alias of another one, as a link is, or the working directory
under its own name. Files may have little room, like those on a full disk.
-/

namespace Phrasebook

/-- Where a walk starts: a number of levels above the working directory, or the root. -/
inductive Anchor
  | ancestor (levels : Nat)
  | root
  deriving DecidableEq, Repr

structure Place where
  anchor : Anchor := .ancestor 0
  names : List String := []
  deriving DecidableEq, Repr

namespace Place

/-- The place one level up; the root is above itself. -/
def parent (place : Place) : Place :=
  match place.names, place.anchor with
  | [], .ancestor levels => { anchor := .ancestor (levels + 1) }
  | [], .root => place
  | _, _ => { place with names := place.names.dropLast }

def child (place : Place) (name : String) : Place := { place with names := place.names ++ [name] }

end Place

/-- The files and directories on a disk. Every anchor is a directory without being listed. -/
structure Folder where
  files : List (Place × List UInt8) := []
  directories : List Place := []
  /-- Places that stand for others, which are no aliases themselves. -/
  aliases : List (Place × Place) := []
  /-- How many bytes the file at a place can take; any number if it is not listed. -/
  rooms : List (Place × Nat) := []
  deriving DecidableEq, Repr

namespace Folder

def maxName : Nat := 255

/-- The longest path that the system takes, in bytes. -/
def maxPath : Nat := 4095

def fileAt? (folder : Folder) (place : Place) : Option (List UInt8) := folder.files.lookup place

def isDirectory (folder : Folder) (place : Place) : Bool :=
  place.names = [] || folder.directories.contains place

def requireDirectory (folder : Folder) (place : Place) : Except OsError Unit :=
  if (folder.fileAt? place).isSome then .error .notDirectory
  else if folder.isDirectory place then .ok ()
  else .error .notFound

def settle (folder : Folder) (place : Place) : Place := (folder.aliases.lookup place).getD place

def walkName (folder : Folder) (place : Place) (name : String) : Except OsError Place := do
  folder.requireDirectory place
  if name = "." then return place
  if name = ".." then return place.parent
  if maxName < name.utf8ByteSize then throw .nameTooLong
  return folder.settle (place.child name)

def startOf (path : String) : Place :=
  if path.toList.head? = some '/' then { anchor := .root } else {}

def endsInSlash (path : String) : Bool := path.toList.getLast? = some '/'

def requirePath (path : String) : Except OsError Unit :=
  if path = "" then .error .notFound
  else if maxPath < path.utf8ByteSize then .error .nameTooLong
  else .ok ()

def placeToRead (folder : Folder) (path : String) : Except OsError Place := do
  requirePath path
  let place ← (Path.components path).foldlM folder.walkName (startOf path)
  if endsInSlash path then folder.requireDirectory place
  if (folder.fileAt? place).isSome || folder.isDirectory place then return place
  throw .notFound

def put (folder : Folder) (place : Place) (data : List UInt8) : Folder :=
  { folder with files := (place, data) :: folder.files.filter fun file => file.1 ≠ place }

theorem fileAt?_put_self (folder : Folder) (place : Place) (data : List UInt8) :
    (folder.put place data).fileAt? place = some data := by
  simp [fileAt?, put]

theorem lookup_filter_ne {place other : Place} (apart : other ≠ place)
    (files : List (Place × List UInt8)) :
    (files.filter fun file => file.1 ≠ place).lookup other = files.lookup other := by
  induction files with
  | nil => rfl
  | cons file rest ih =>
      obtain ⟨at_, data⟩ := file
      by_cases gone : at_ = place
      · subst gone
        rw [List.filter_cons_of_neg (by simp), ih, List.lookup_cons, beq_false_of_ne apart]
      · rw [List.filter_cons_of_pos (by simpa using gone), List.lookup_cons, List.lookup_cons, ih]

theorem fileAt?_put_of_ne (folder : Folder) {place other : Place} (apart : other ≠ place)
    (data : List UInt8) : (folder.put place data).fileAt? other = folder.fileAt? other := by
  rw [fileAt?, put, List.lookup_cons, beq_false_of_ne apart]
  exact lookup_filter_ne apart folder.files

def placeToWrite (folder : Folder) (path : String) : Except OsError Place := do
  requirePath path
  let names := Path.components path
  let place ← names.dropLast.foldlM folder.walkName (startOf path)
  folder.requireDirectory place
  match names.getLast? with
  | none => throw .isDirectory
  | some name =>
      if endsInSlash path ∨ name = "." ∨ name = ".." then throw .isDirectory
      let place ← folder.walkName place name
      if (folder.fileAt? place).isNone ∧ folder.isDirectory place then throw .isDirectory
      return place

def shortfall? (folder : Folder) (place : Place) (output : List UInt8) :
    Option Bytes.Shortfall :=
  (folder.rooms.lookup place).bind fun room =>
    Bytes.Shortfall.ofRoom? room OsError.noSpace.fault output

/-- The folder as a system of files, which refuses nothing but what cannot be. -/
def system : System Folder Place where
  contents? := fileAt?
  put := put
  contents?_put_self := fileAt?_put_self
  contents?_put_of_ne folder _ data _ apart := fileAt?_put_of_ne folder apart data
  toRead := placeToRead
  toWrite := placeToWrite
  readFault? _ _ := none
  shortfall? := shortfall?

def disk : Disk (StateM Folder) := system.disk

def openFile (folder : Folder) (path : String) : Except OsError Bytes.Source :=
  system.openFile folder path

def read? (folder : Folder) (path : String) : Option (List UInt8) :=
  (folder.openFile path).toOption.bind fun source => source.readAll.toOption

/-! ## Making folders -/

def makeDirectory (folder : Folder) (place : Place) : Folder :=
  if folder.isDirectory place || (folder.fileAt? place).isSome then folder
  else { folder with directories := place :: folder.directories }

def makeName (folder : Folder) (place : Place) (name : String) : Folder × Place :=
  if name = "." then (folder, place)
  else if name = ".." then (folder, place.parent)
  else
    let place := folder.settle (place.child name)
    (folder.makeDirectory place, place)

def makeParents (folder : Folder) (path : String) : Folder :=
  ((Path.components path).dropLast.foldl (fun (made, place) name => made.makeName place name)
    (folder, startOf path)).1

def addFile (folder : Folder) (path : String) (data : List UInt8) : Folder :=
  (disk.writeFile path data (folder.makeParents path)).2

def ofFiles (files : List (String × List UInt8)) : Folder :=
  files.foldl (fun folder (path, data) => folder.addFile path data) {}

end Folder

def Disk.service {m : Type → Type} [Monad m] (disk : Disk m) (root : String) : FileService m where
  openFile path _ := do return (← disk.openFile (Path.resolve root path)).toOption

end Phrasebook

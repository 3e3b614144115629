import Phrasebook.Bytes.Source

/-!
# Disks

Opening and creating files by path, with the reasons why the system may refuse.
To create a file is one step, which empties a file that is there; to write to it
is another, which may fail.
-/

namespace Phrasebook

structure OsError where
  code : Nat
  text : String
  deriving DecidableEq, Repr

namespace OsError

def notFound : OsError := ⟨2, "No such file or directory"⟩

def notDirectory : OsError := ⟨20, "Not a directory"⟩

/-- A directory stands where a file is needed. -/
def isDirectory : OsError := ⟨21, "Is a directory"⟩

def noSpace : OsError := ⟨28, "No space left on device"⟩

def nameTooLong : OsError := ⟨36, "File name too long"⟩

def message (e : OsError) : String := e.text ++ " (os error " ++ e.code.repr ++ ")"

def fault (e : OsError) : Bytes.Fault := { text := e.message }

end OsError

structure Disk (m : Type → Type) where
  /-- A file that has been created and can be written to. -/
  Handle : Type
  openFile : String → m (Except OsError Bytes.Source)
  createFile : String → m (Except OsError Handle)
  write : Handle → List UInt8 → m (Except Bytes.Fault Unit)

def Disk.writeFile {m : Type → Type} [Monad m] (disk : Disk m) (path : String)
    (data : List UInt8) : m (Except Bytes.Fault Unit) := do
  match ← disk.createFile path with
  | .error e => return .error e.fault
  | .ok handle => disk.write handle data

end Phrasebook

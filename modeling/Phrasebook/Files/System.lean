import Phrasebook.Bytes.Sink
import Phrasebook.Files.Disk

/-!
# Systems of files

Paths lead to files, and a file may be reached by any number of them: through
links, through directories that are left again, or under the name that the
working directory has in the one above it. So a path is not a file. What a path
leads to is up to the system, which may also refuse it, and so is whether reading
and writing go well.
-/

namespace Phrasebook

structure System (σ File : Type) where
  /-- The bytes of a file that is there; a directory has none. -/
  contents? : σ → File → Option (List UInt8)
  put : σ → File → List UInt8 → σ
  contents?_put_self : ∀ s file data, contents? (put s file data) file = some data
  contents?_put_of_ne : ∀ s file data other, other ≠ file →
    contents? (put s file data) other = contents? s other
  toRead : σ → String → Except OsError File
  /-- The file that a path leads to, or a new one. -/
  toWrite : σ → String → Except OsError File
  /-- Where reading a file fails, and how. -/
  readFault? : σ → File → Option (Nat × Bytes.Fault)
  shortfall? : σ → File → List UInt8 → Option Bytes.Shortfall

namespace System

variable {σ File : Type} (system : System σ File)

def source (s : σ) (file : File) : Bytes.Source :=
  match system.contents? s file with
  | none => { pending := [], fault := some OsError.isDirectory.fault }
  | some data =>
      match system.readFault? s file with
      | none => .ofBytes data
      | some (position, fault) => .failingAt position fault data

def openFile (s : σ) (path : String) : Except OsError Bytes.Source :=
  (system.toRead s path).map (system.source s)

/-- What becomes of output that is written to an empty file. -/
def delivery (s : σ) (file : File) (output : List UInt8) : Bytes.Delivery :=
  Bytes.deliver (system.shortfall? s file output) output

def disk : Disk (StateM σ) where
  Handle := File
  openFile path := fun s => (system.openFile s path, s)
  createFile path := fun s =>
    match system.toWrite s path with
    | .error e => (.error e, s)
    | .ok file => (.ok file, system.put s file [])
  write file data := fun s =>
    let delivery := system.delivery s file data
    (match delivery.fault with
      | none => .ok ()
      | some fault => .error fault, system.put s file delivery.written)

end System

end Phrasebook

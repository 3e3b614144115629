import Std.Data.HashMap
import Phrasebook.Files.Service
import Phrasebook.Path

/-!
# Files in memory

A store of whole files. Paths that differ only in the kind of their slashes or
in the case of ASCII letters name the same file.
-/

namespace Phrasebook

def Path.key (path : String) : String :=
  String.ofList ((Path.normalize path).toList.map Char.toLower)

structure MemoryStore where
  files : Std.HashMap String (List UInt8) := ∅

namespace MemoryStore

def insert (store : MemoryStore) (path : String) (data : List UInt8) : MemoryStore where
  files := store.files.insert (Path.key path) data

/-- The data under a path; the mode makes no difference. -/
def openFile (store : MemoryStore) (path : String) (_mode : OpenMode) : Option Bytes.Source :=
  (store.files[Path.key path]?).map Bytes.Source.ofBytes

def contains (store : MemoryStore) (path : String) : Bool :=
  (store.openFile path .binary).isSome

def size (store : MemoryStore) : Nat := store.files.size

def isEmpty (store : MemoryStore) : Bool := store.files.isEmpty

end MemoryStore

end Phrasebook

import Phrasebook.Bytes.Source

/-!
# File services

What the catalogue needs of a file system: opening a path for reading. A path
that cannot be opened is an ordinary answer. A service may change with every
use, so two opens of one path may well give different answers.
-/

namespace Phrasebook

/-- How a file is opened, for services that tell text from other data. -/
inductive OpenMode
  | text
  | binary
  deriving DecidableEq, Repr

structure FileService (m : Type → Type) where
  /-- Opens a path for reading; `none` if that is not possible. -/
  openFile : String → OpenMode → m (Option Bytes.Source)

end Phrasebook

import Phrasebook.Format
import Phrasebook.Settings.Basic
import Phrasebook.Table

/-!
# The catalogue

A catalogue serves phrases by label. It holds a main table, under which a map
table may lie: a label is looked for in the main table first. A label in neither
is answered with a placeholder and remembered.

Loading takes two passes over a file. The first only tells how many entries to
expect, the second reads them; the file may have changed in between.
-/

namespace Phrasebook

structure Answer where
  text : String
  /-- It is a phrase from a table and not a placeholder. -/
  found : Bool
  deriving DecidableEq, Repr

def fatalPlaceholder : String := "***FATAL*** String Manager failed to initialize properly"

def missingPlaceholder (label : String) : String := "MISSING: '" ++ label ++ "'"

structure Catalogue where
  settings : Settings
  /-- Starting has been tried and did not fail halfway. -/
  started : Bool := false
  /-- The format of the file that the main table comes from. -/
  format : Option Format := none
  main : Option Table := none
  map : Option Table := none
  /-- The placeholders that stood for missing labels, each once, the earliest first. -/
  missing : List String := []
  /-- What was served for the title label when the main table was loaded. -/
  title : Option String := none
  maxLabelLen : Nat := 0

namespace Catalogue

/-! ## Phrases -/

def find? (c : Catalogue) (label : String) : Option String :=
  match c.main with
  | none => none
  | some main =>
      match main.get? label with
      | some e => some e.text
      | none =>
          match c.map with
          | none => none
          | some map => (map.get? label).map Entry.text

def noteMissing (c : Catalogue) (label : String) : Catalogue :=
  if missingPlaceholder label ∈ c.missing then c
  else { c with missing := c.missing ++ [missingPlaceholder label] }

def fetch (c : Catalogue) (label : String) : Answer × Catalogue :=
  match c.main with
  | none => ({ text := fatalPlaceholder, found := false }, c)
  | some _ =>
      match c.find? label with
      | some text => ({ text, found := true }, c)
      | none => ({ text := missingPlaceholder label, found := false }, c.noteMissing label)

def fetchOr (c : Catalogue) (label substitute : String) : String :=
  (c.find? label).getD substitute

/-- The labels that start with these characters, first of the main table, then of the map table. -/
def labelsStartingWith (c : Catalogue) (start : String) : List String :=
  let ofMain := match c.main with
    | none => []
    | some main => main.labelsStartingWith start
  let ofMap := match c.map with
    | none => []
    | some map => map.labelsStartingWith start
  ofMain ++ ofMap

def missingTexts (c : Catalogue) : List String := c.missing

/-! ## Facts about the tables -/

def isLoaded (c : Catalogue) : Bool := c.main.isSome

def textCount (c : Catalogue) : Nat := (c.main.map Table.size).getD 0

def mapTextCount (c : Catalogue) : Nat := (c.map.map Table.size).getD 0

def languageId (c : Catalogue) : UInt32 := (c.main.map Table.languageId).getD 0

/-! ## Loading and dropping tables -/

/-- Takes a table as the main one and serves the title from it. -/
def install (c : Catalogue) (format : Format) (table : Table) : Catalogue :=
  let c := { c with maxLabelLen := table.maxLabelLen, format := some format, main := some table }
  let (answer, c) := c.fetch c.settings.titleLabel
  { c with title := some answer.text }

/-- Drops everything but the settings, field by field. -/
def shutDown (c : Catalogue) : Catalogue :=
  { c with
    main := none
    map := none
    format := none
    title := none
    missing := []
    maxLabelLen := 0
    started := false }

def unloadMap (c : Catalogue) : Catalogue := { c with map := none }

section Loading

variable {m : Type → Type} [Monad m] (files : FileService m)

/-- The first pass: how many entries a file promises, if it can be opened and read that far. -/
def expectedCount? (format : Format) (path : String) : m (Option Nat) := do
  match ← files.openFile path format.openMode with
  | none => return none
  | some source => return (format.expectedCount source).toOption

def loadTable (format : Format) (path : String) : m (Except LoadError Table) := do
  match ← files.openFile path format.openMode with
  | none => return .error (.fileNotFound path)
  | some source => return (format.load source).map Table.ofListing

structure Candidate where
  format : Format
  path : String
  count : Nat

/-- Chooses between the plain file, if it is to be tried, and the compiled one. -/
def candidate? (settings : Settings) : m (Option Candidate) := do
  let plain ← if settings.usePlain then expectedCount? files .plain settings.plainPath
    else pure none
  match plain with
  | some count => return some { format := .plain, path := settings.plainPath, count }
  | none =>
      let compiled ← expectedCount? files .compiled settings.compiledPath
      return compiled.map fun count =>
        { format := .compiled, path := settings.compiledPath, count }

/--
Loads the main table, unless that has been tried already. Without a file, or if
the file promises no entries, there is no main table. If loading fails halfway,
everything is dropped.
-/
def start (c : Catalogue) : m Catalogue := do
  if c.started then return c
  let c := { c with started := true, maxLabelLen := 0 }
  match ← candidate? files c.settings with
  | none => return c
  | some chosen =>
      if chosen.count = 0 then return c
      match ← loadTable files chosen.format chosen.path with
      | .error _ => return c.shutDown
      | .ok table => return c.install chosen.format table

/--
Loads the map table from a plain file, in place of the one before, and tells how
many phrases it has. If that fails there is no map table.
-/
def loadMap (path : String) (c : Catalogue) : m (Except LoadError Nat × Catalogue) := do
  let c := c.unloadMap
  match ← expectedCount? files .plain path with
  | none => return (.error (.fileNotFound path), c)
  | some _ =>
      match ← loadTable files .plain path with
      | .error e => return (.error e, c)
      | .ok table =>
          return (.ok table.size,
            { c with map := some table, maxLabelLen := max c.maxLabelLen table.maxLabelLen })

end Loading

end Catalogue

end Phrasebook

import Phrasebook.Catalogue
import Phrasebook.CommandLine.Command
import Phrasebook.Files.Folder
import Phrasebook.Settings.Saved

/-!
# Running commands

A command reads and writes files of a disk and ends with an exit code and what
it has printed. What was printed before a failure stays printed.

Loading a file may log something, and the log may go to the standard output too.
What a catalogue logs beyond that is left out.
-/

namespace Phrasebook.CommandLine

structure Outcome where
  code : Nat := 0
  stdout : String := ""
  stderr : String := ""
  deriving DecidableEq, Repr

inductive Failure
  | os (e : OsError)
  | load (e : LoadError)
  | labelNotFound (label : String)
  | nothingLoaded (root : String)
  deriving DecidableEq, Repr

namespace Failure

def message : Failure → String
  | os e => e.message
  | load e => e.message
  | labelNotFound label => "Label not found: " ++ label
  | nothingLoaded root => "No string table could be loaded under " ++ root

def cause? : Failure → Option String
  | load (.io fault) => some fault.text
  | _ => none

def report (failure : Failure) : String :=
  match failure.cause? with
  | none => "Error: " ++ failure.message ++ "\n"
  | some cause => "Error: " ++ failure.message ++ "\n\nCaused by:\n    " ++ cause ++ "\n"

end Failure

namespace Outcome

def success (stdout : String) : Outcome := { stdout }

def failure (stdout : String) (f : Failure) : Outcome := { code := 1, stdout, stderr := f.report }

def usage : Outcome := { code := 2 }

end Outcome

/-! ## Output -/

/-- A newline is shown as a backslash and the letter `n`. -/
def showText (text : String) : String :=
  String.ofList (text.toList.flatMap fun c => if c = '\n' then ['\\', 'n'] else [c])

def showEntry (e : Entry) : String :=
  if e.cue = "" then e.label ++ "\t" ++ showText e.text ++ "\n"
  else e.label ++ "\t" ++ showText e.text ++ "\t[" ++ e.cue ++ "]\n"

def showStats (path : String) (listing : Listing) : String :=
  let entries := listing.entries
  let characters := entries.foldr (fun e n => e.text.length + n) 0
  let withCue := entries.countP fun e => e.cue ≠ ""
  let empty := entries.countP fun e => e.text = ""
  path ++ ":\n" ++
    "  Records: " ++ entries.length.repr ++ "\n" ++
    "  Total characters: " ++ characters.repr ++ "\n" ++
    "  Longest label: " ++ listing.maxLabelLen.repr ++ " bytes\n" ++
    "  With speech cue: " ++ withCue.repr ++ "\n" ++
    (if 0 < empty then "  Empty strings: " ++ empty.repr ++ "\n" else "") ++
    (if Path.isCompiled path then "  Language id: " ++ listing.languageId.toNat.repr ++ "\n"
      else "") ++
    "\n"

def showAnswer (label : String) (answer : Answer) : String :=
  label ++ (if answer.found then "" else " (missing)") ++ ": " ++ answer.text ++ "\n"

/-! ## Commands -/

structure Host (m : Type → Type) where
  disk : Disk m
  library : Settings.Library
  /-- What goes to the standard output of all that is logged while a file is loaded. -/
  log : Format → Bytes.Source → String

section Commands

variable {m : Type → Type} [Monad m] (host : Host m)

def Host.loadSource (format : Format) (source : Bytes.Source) : Except Failure Listing × String :=
  ((format.load source).mapError .load, host.log format source)

/--
Loads a file in the format that its path tells, and says what was logged. A plain
file is opened twice.
-/
def loadFile (path : String) : m (Except Failure Listing × String) := do
  match Format.ofPath path with
  | .compiled =>
      match ← host.disk.openFile path with
      | .error e => return (.error (.os e), "")
      | .ok source => return host.loadSource .compiled source
  | .plain =>
      match ← host.disk.openFile path with
      | .error e => return (.error (.os e), "")
      | .ok source =>
          match Format.plain.expectedCount source with
          | .error e => return (.error (.load e), "")
          | .ok _ =>
              match ← host.disk.openFile path with
              | .error e => return (.error (.os e), "")
              | .ok source => return host.loadSource .plain source

def dump (path : String) (sorted : Bool) (limit : Option Nat) : m Outcome := do
  match ← loadFile host path with
  | (.error f, logged) => return .failure logged f
  | (.ok listing, logged) =>
      let entries := if sorted then (Table.ofListing listing).sorted else listing.entries
      let shown := match limit with
        | none => entries
        | some n => entries.take n
      return .success (logged ++ String.join (shown.map showEntry))

def get (path label : String) : m Outcome := do
  match ← loadFile host path with
  | (.error f, logged) => return .failure logged f
  | (.ok listing, logged) =>
      match (Table.ofListing listing).get? label with
      | none => return .failure logged (.labelNotFound label)
      | some e => return .success (logged ++ showEntry e)

def list (path start : String) : m Outcome := do
  match ← loadFile host path with
  | (.error f, logged) => return .failure logged f
  | (.ok listing, logged) =>
      let labels := (Table.ofListing listing).labelsStartingWith start
      return .success (logged ++ String.join (labels.map fun label => label ++ "\n"))

def convert (source destination : String) (languageId : UInt32) : m Outcome := do
  match ← loadFile host source with
  | (.error f, logged) => return .failure logged f
  | (.ok listing, logged) =>
      match ← host.disk.createFile destination with
      | .error e => return .failure logged (.os e)
      | .ok file =>
          let languageId := if languageId = 0 then listing.languageId else languageId
          let output := (Format.ofPath destination).print listing.entries languageId
          match ← host.disk.write file output with
          | .error fault => return .failure logged (.load (.io fault))
          | .ok () =>
              return .success (logged ++ "Converted " ++ listing.entries.length.repr ++
                " records: " ++ source ++ " -> " ++ destination ++ "\n")

def statsOf : List String → m (String × Except Failure Nat)
  | [] => return ("", .ok 0)
  | path :: rest => do
      match ← loadFile host path with
      | (.error f, logged) => return (logged, .error f)
      | (.ok listing, logged) =>
          let (shown, total) ← statsOf rest
          return (logged ++ showStats path listing ++ shown,
            total.map (listing.entries.length + ·))

def stats (paths : List String) : m Outcome := do
  match ← statsOf host paths with
  | (shown, .error f) => return .failure shown f
  | (shown, .ok total) =>
      if paths.length ≤ 1 then return .success shown
      return .success (shown ++ "Total across " ++ paths.length.repr ++ " files: " ++ total.repr ++
        " records\n")

def settingsAt (path : Option String) : m Settings := do
  match path with
  | none => return {}
  | some path => return Settings.loadOrDefault host.library (← host.disk.openFile path)

def showAnswers (c : Catalogue) : List String → String
  | [] => ""
  | label :: rest =>
      let (answer, c) := c.fetch label
      showAnswer label answer ++ showAnswers c rest

def withMap (files : FileService m) (map : Option String) (c : Catalogue) :
    m (Except LoadError Catalogue) := do
  match map with
  | none => return .ok c
  | some path =>
      match ← c.loadMap files path with
      | (.error e, _) => return .error e
      | (.ok _, c) => return .ok c

def fetch (root : String) (settings language map : Option String) (labels : List String) :
    m Outcome := do
  let loaded ← settingsAt host settings
  let chosen := match language with
    | none => loaded
    | some language => { loaded with language }
  let files := host.disk.service root
  let c ← Catalogue.start files { settings := chosen }
  if !c.isLoaded then return .failure "" (.nothingLoaded root)
  match ← withMap files map c with
  | .error e => return .failure "" (.load e)
  | .ok c => return .success (showAnswers c labels)

def Command.run : Command → m Outcome
  | .dump path sorted limit => CommandLine.dump host path sorted limit
  | .get path label => CommandLine.get host path label
  | .list path start => CommandLine.list host path start
  | .convert source destination languageId =>
      CommandLine.convert host source destination languageId
  | .stats paths => CommandLine.stats host paths
  | .fetch root settings language map labels =>
      CommandLine.fetch host root settings language map labels

def runWords (words : List String) : m Outcome :=
  match Command.read? words with
  | none => return .usage
  | some command => command.run host

end Commands

end Phrasebook.CommandLine

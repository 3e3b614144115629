import Phrasebook.CommandLine.Run
import Phrasebook.Settings.Json

/-!
# The command line tool

Runs a command line on the disk of the system. Nothing is logged.
-/

namespace Phrasebook.CommandLine

/-- The number of a refusal as the system knows it; some arrive with the opposite sign. -/
def errorNumber (code : UInt32) : Nat :=
  if code.toNat < 0x80000000 then code.toNat else UInt32.size - code.toNat

/-- A refusal with its usual words, or with the given ones if it is a rare one. -/
def refusalOf (code : UInt32) (details : String) : OsError :=
  match errorNumber code with
  | 1 => ⟨1, "Operation not permitted"⟩
  | 2 => .notFound
  | 13 => ⟨13, "Permission denied"⟩
  | 20 => .notDirectory
  | 21 => .isDirectory
  | 24 => ⟨24, "Too many open files"⟩
  | 28 => ⟨28, "No space left on device"⟩
  | 30 => ⟨30, "Read-only file system"⟩
  | 36 => .nameTooLong
  | 40 => ⟨40, "Too many levels of symbolic links"⟩
  | n => ⟨n, details⟩

def refusal : IO.Error → OsError
  | .noFileOrDirectory _ code details | .inappropriateType _ code details
  | .permissionDenied _ code details | .invalidArgument _ code details
  | .resourceExhausted _ code details | .noSuchThing _ code details
  | .alreadyExists _ code details | .resourceBusy code details
  | .hardwareFault code details | .unsupportedOperation code details
  | .otherError code details => refusalOf code details
  | other => ⟨5, toString other⟩

/-- What opening a path gives: reading from a directory fails, but opening one does not. -/
def openSystemFile (path : String) : IO (Except OsError Bytes.Source) := do
  try
    let data ← IO.FS.readBinFile path
    return .ok (.ofBytes data.toList)
  catch error =>
    let refused := refusal error
    if refused = .isDirectory then
      return .ok { pending := [], fault := some refused.fault }
    return .error refused

def createSystemFile (path : String) : IO (Except OsError IO.FS.Handle) := do
  try
    return .ok (← IO.FS.Handle.mk path .write)
  catch error => return .error (refusal error)

def writeSystemFile (file : IO.FS.Handle) (data : List UInt8) : IO (Except Bytes.Fault Unit) := do
  try
    file.write data.toByteArray
    file.flush
    return .ok ()
  catch error => return .error (refusal error).fault

def systemDisk : Disk IO where
  Handle := IO.FS.Handle
  openFile := openSystemFile
  createFile := createSystemFile
  write := writeSystemFile

def systemHost : Host IO where
  disk := systemDisk
  library := Settings.strictJson
  log _ _ := ""

end Phrasebook.CommandLine

def main (words : List String) : IO UInt32 := do
  let outcome ← Phrasebook.CommandLine.runWords Phrasebook.CommandLine.systemHost words
  IO.print outcome.stdout
  if outcome.code = 2 then
    IO.eprintln "usage: phrasebook dump|get|prefix|convert|stats|fetch ..."
  else IO.eprint outcome.stderr
  return outcome.code.toUInt32

import Phrasebook.Error
import Phrasebook.Files.Folder
import Phrasebook.Settings.Basic
import Phrasebook.Text.Utf8

/-!
# Saved settings

How settings are written as JSON and read from it is left to a library. It may lay
out an object and escape its texts as it likes, as long as it keeps to the syntax,
and it reads what keeps to the syntax (`Library.Standard`).
-/

namespace Phrasebook.Settings

structure Library where
  write : Settings → String
  read? : String → Option Settings

/-- What is relied on: the fields are written as an object, and such objects are read. -/
structure Library.Standard (library : Library) : Prop where
  writes : ∀ settings, Json.ObjectText settings.fields (library.write settings).toList
  /-- Members with other names are passed over. -/
  reads : ∀ text members settings, Json.ObjectText members text.toList →
    (members.map Prod.fst).Nodup → settings.TakenFrom members →
    library.read? text = some settings

section Library

variable (library : Library)

/--
The folder after settings are written to a file, in directories that are made if
they are missing; nothing if that fails.
-/
def save? (settings : Settings) (folder : Folder) (path : String) : Option Folder :=
  let data := Text.utf8 (library.write settings)
  match Folder.disk.writeFile path data (folder.makeParents path) with
  | (.error _, _) => none
  | (.ok (), after) => some after

def notUtf8 : Bytes.Fault := { text := "stream did not contain valid UTF-8" }

def load (source : Bytes.Source) : Except LoadError Settings :=
  match source.readAll with
  | .error fault => .error (.io fault)
  | .ok bytes =>
      match Text.ofUtf8? bytes with
      | none => .error (.io notUtf8)
      | some text =>
          match library.read? text with
          | none => .error .malformedSettings
          | some settings => .ok settings

def loadOpened (opened : Except OsError Bytes.Source) : Except LoadError Settings :=
  match opened with
  | .error e => .error (.io e.fault)
  | .ok source => load library source

def loadOrDefault (opened : Except OsError Bytes.Source) : Settings :=
  match loadOpened library opened with
  | .error _ => {}
  | .ok settings => settings

end Library

end Phrasebook.Settings

import Phrasebook.Json.Pretty
import Phrasebook.Json.Value
import Phrasebook.Settings.Saved

/-!
# A strict library for settings

Reading is strict about the syntax and about the members it knows, each of which
may be left out but not come twice; members it does not know are passed over. An
array of at most five values stands for the object with these values in the order
of the fields.
-/

namespace Phrasebook.Settings

/-- The value of a member: a default if it is left out, nothing if it comes twice. -/
def member? (decode : Json.Value → Option α) (members : List (String × Json.Value))
    (name : String) (default : α) : Option α :=
  match members.filter fun m => m.1 == name with
  | [] => some default
  | [m] => decode m.2
  | _ => none

def text? : Json.Value → Option String
  | .text content => content
  | _ => none

def bool? : Json.Value → Option Bool
  | .bool b => some b
  | _ => none

def ofMembers? (members : List (String × Json.Value)) : Option Settings := do
  let language ← member? text? members "language" ({} : Settings).language
  let usePlain ← member? bool? members "use_string_file" ({} : Settings).usePlain
  let plainFile ← member? text? members "string_file" ({} : Settings).plainFile
  let compiledFile ← member? text? members "csf_file" ({} : Settings).compiledFile
  let titleLabel ← member? text? members "title_label" ({} : Settings).titleLabel
  return { language, usePlain, plainFile, compiledFile, titleLabel }

def named? (m : Option String × Json.Value) : Option (String × Json.Value) :=
  m.1.map fun name => (name, m.2)

def ofJson? : Json.Value → Option Settings
  | .object members => (members.mapM named?).bind ofMembers?
  | .array items =>
      let names := ({} : Settings).fields.map Prod.fst
      if items.length ≤ names.length then ofMembers? (names.zip items) else none
  | _ => none

def strictJson : Library where
  write settings := Json.pretty settings.fields
  read? text := (Json.parse? text).bind ofJson?

end Phrasebook.Settings

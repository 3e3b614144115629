import Phrasebook.Json.Syntax
import Phrasebook.Text.Template

/-!
# Settings

Where the main table comes from. The file names are templates in which the
language may stand.
-/

namespace Phrasebook

structure Settings where
  language : String := "English"
  /-- The plain file is tried before the compiled one. -/
  usePlain : Bool := true
  plainFile : String := "data/Generals.str"
  compiledFile : String := "data/\x7blanguage\x7d/Generals.csf"
  titleLabel : String := "GUI:Command&ConquerGenerals"
  deriving DecidableEq, Repr

namespace Settings

def plainPath (settings : Settings) : String :=
  Text.fillLanguage settings.plainFile settings.language

def compiledPath (settings : Settings) : String :=
  Text.fillLanguage settings.compiledFile settings.language

/-! ## Fields -/

def fields (settings : Settings) : List (String × Json.Scalar) :=
  [("language", .text settings.language), ("use_string_file", .bool settings.usePlain),
    ("string_file", .text settings.plainFile), ("csf_file", .text settings.compiledFile),
    ("title_label", .text settings.titleLabel)]

/-- Members of an object give this value to a field, or leave it out and the default counts. -/
def Gives (members : List (String × Json.Scalar)) (name : String) (default value : Json.Scalar) :
    Prop :=
  members.lookup name = some value ∨ members.lookup name = none ∧ value = default

structure TakenFrom (settings : Settings) (members : List (String × Json.Scalar)) : Prop where
  language : Gives members "language" (.text "English") (.text settings.language)
  usePlain : Gives members "use_string_file" (.bool true) (.bool settings.usePlain)
  plainFile : Gives members "string_file" (.text "data/Generals.str") (.text settings.plainFile)
  compiledFile : Gives members "csf_file" (.text "data/\x7blanguage\x7d/Generals.csf")
    (.text settings.compiledFile)
  titleLabel : Gives members "title_label" (.text "GUI:Command&ConquerGenerals")
    (.text settings.titleLabel)

end Settings

end Phrasebook

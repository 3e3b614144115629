import Phrasebook.Entry
import Phrasebook.Text.Escape
import Phrasebook.Text.Utf8

/-!
# Writing a plain file

Each entry becomes a block of its own: the label, the escaped phrase between
quotes with its cue behind an equals sign, `END`, and an empty line.
-/

namespace Phrasebook.Plain

open Bytes

/-- What stands behind the closing quote: nothing, or the cue. -/
def cuePart (cue : String) : List UInt8 :=
  if cue = "" then [] else [space, equals, space] ++ Text.utf8 cue

def printEntry (e : Entry) : List UInt8 :=
  Text.escape e.label ++ [newline, quote] ++ Text.escape e.text ++ [quote] ++ cuePart e.cue ++
    [newline, 0x45, 0x4E, 0x44, newline, newline]

def print (entries : List Entry) : List UInt8 := entries.flatMap printEntry

end Phrasebook.Plain

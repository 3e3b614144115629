import Phrasebook.Compiled.Layout
import Phrasebook.Entry
import Phrasebook.Text.Latin

/-!
# Writing a compiled file

Each entry becomes a block with a single variant, which has a cue exactly if the
entry has one. Labels and cues are written in single bytes.
-/

namespace Phrasebook.Compiled

def writtenVersion : UInt32 := 3

def headerFor (count : Nat) (languageId : UInt32) : Header where
  version := writtenVersion
  labelCount := UInt32.ofNat count
  stringCount := UInt32.ofNat count
  languageId := languageId

def Block.ofEntry (e : Entry) : Block where
  label := Text.narrow e.label
  variants :=
    [{ units := Text.encodeStored e.text
       cue := if e.cue = "" then none else some (Text.narrow e.cue) }]

def print (entries : List Entry) (languageId : UInt32) : List UInt8 :=
  (headerFor entries.length languageId).toBytes ++
    entries.flatMap fun e => (Block.ofEntry e).toBytes

end Phrasebook.Compiled

import Phrasebook.Compiled.Reader
import Phrasebook.Listing
import Phrasebook.Text.Latin
import Phrasebook.Text.Spacing

/-!
# Loading a compiled file

The blocks end at the first mark that is not the mark of a block, or where fewer
than four bytes are left. Of the variants under a label only the first counts,
though all of them have to be well formed. The counts in the header promise
nothing about the blocks.
-/

namespace Phrasebook.Compiled

open Bytes

def readHeader : Reader Header := do
  let raw ← readField headerSize "CSF header"
  let wordAt (n : Nat) : UInt32 := wordOfBytes ((raw.drop (4 * n)).take 4)
  if raw.take markSize ≠ fileMark then throw (.badMagic (raw.take markSize))
  return {
    version := wordAt 1
    labelCount := wordAt 2
    stringCount := wordAt 3
    reserved := wordAt 4
    languageId := wordAt 5 }

def readCue? (mark : List UInt8) : Reader (Option (List UInt8)) :=
  if mark = cueMark then do
    let length ← readWord "speech length"
    let cue ← readRun length.toNat "speech"
    return some cue
  else return none

def readVariant (label : String) : Reader Variant := do
  let mark ← readField markSize ("variant tag of '" ++ label ++ "'")
  if mark ≠ textMark ∧ mark ≠ cueMark then throw (.unknownTag label (wordOfBytes mark))
  let count ← readWord "text length"
  let raw ← readRun (2 * count.toNat) "text"
  let cue ← readCue? mark
  return { units := Text.unitsOfBytes raw, cue }

def readVariants (label : String) : Nat → Reader (List Variant)
  | 0 => return []
  | count + 1 => do
      let first ← readVariant label
      let others ← readVariants label count
      return first :: others

def readBlockBody : Reader Block := do
  let count ← readWord "label variant count"
  let length ← readWord "label length"
  let label ← readRun length.toNat "label"
  let variants ← readVariants (Text.widen label) count.toNat
  return { label, variants }

theorem consumes_readCue? (mark : List UInt8) : Consumes (readCue? mark) := by
  rw [readCue?]
  split
  · exact .bind (.readWord _) fun _ => .bind (.readRun _ _) fun _ => .pure _
  · exact .pure _

theorem consumes_readVariant (label : String) : Consumes (readVariant label) := by
  refine .bind (.readField _ _) fun mark => ?_
  split
  · exact .bind (.throw _) fun _ => .bind (.readWord _) fun _ => .bind (.readRun _ _) fun _ =>
      .bind (consumes_readCue? _) fun _ => .pure _
  · exact .bind (.readWord _) fun _ => .bind (.readRun _ _) fun _ =>
      .bind (consumes_readCue? _) fun _ => .pure _

theorem consumes_readVariants (label : String) (count : Nat) :
    Consumes (readVariants label count) := by
  induction count with
  | zero => exact .pure _
  | succ count ih =>
      exact .bind (consumes_readVariant label) fun _ => .bind ih fun _ => .pure _

theorem consumes_readBlockBody : Consumes readBlockBody :=
  .bind (.readWord _) fun _ => .bind (.readWord _) fun _ => .bind (.readRun _ _) fun _ =>
    .bind (consumes_readVariants _ _) fun _ => .pure _

def readBlocks (source : Source) : Except LoadError (List Block) :=
  match _mark : readMark source with
  | .error e => .error e
  | .ok (none, _) => .ok []
  | .ok (some mark, rest) =>
      if mark = labelMark then
        match _body : readBlockBody rest with
        | .error e => .error e
        | .ok (block, rest) =>
            match readBlocks rest with
            | .error e => .error e
            | .ok blocks => .ok (block :: blocks)
      else .ok []
termination_by source.pending.length
decreasing_by
  have := readMark_lt _mark
  have := consumes_readBlockBody.length_le _body
  omega

/-- The entry that a block defines; a block without variants has an empty phrase. -/
def Block.entry (block : Block) : Entry :=
  match block.variants with
  | [] => { label := Text.widen block.label }
  | v :: _ =>
      { label := Text.widen block.label
        text := Text.squeeze (Text.decodeStored v.units)
        cue := Text.widen (v.cue.getD []) }

def load (source : Source) : Except LoadError Listing := do
  let (header, rest) ← readHeader source
  let blocks ← readBlocks rest
  return Listing.ofBlocks (blocks.map Block.entry) header.effectiveLanguageId

def loadHeader (source : Source) : Except LoadError Header := do
  let (header, _) ← readHeader source
  return header

end Phrasebook.Compiled

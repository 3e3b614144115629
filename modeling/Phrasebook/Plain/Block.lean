import Phrasebook.Error
import Phrasebook.Listing
import Phrasebook.Plain.Quoted
import Phrasebook.Text.Escape
import Phrasebook.Text.Spacing

/-!
# Blocks of a plain file

A plain file is a sequence of blocks. A block is a label line, lines that may
hold quoted text, and a line `END` in any letter case. Between blocks, empty
lines and lines that start with two slashes are passed over. White space at the
edges of a line never counts.
-/

namespace Phrasebook.Plain

open Bytes

def isComment (line : List UInt8) : Bool := [slash, slash].isPrefixOf line

def isEnd (line : List UInt8) : Bool := line.map foldCase == [0x65, 0x6E, 0x64]

inductive BodyLine
  | quoted (span : Span)
  | ending
  | other
  deriving DecidableEq, Repr

def readBodyLine (source : Source) : Except Fault (Option (BodyLine × Source)) :=
  match source.readLine with
  | .error fault => .error fault
  | .ok none => .ok none
  | .ok (some (line, rest)) =>
      match Text.trimEdges line with
      | [] => .ok (some (.other, rest))
      | b :: more =>
          if b = quote then
            match readQuoted (more ++ [newline]) rest with
            | .error fault => .error fault
            | .ok (span, rest) => .ok (some (.quoted span, rest))
          else if isEnd (b :: more) then .ok (some (.ending, rest))
          else .ok (some (.other, rest))

theorem readBodyLine_lt {source rest : Source} {line : BodyLine}
    (h : readBodyLine source = .ok (some (line, rest))) :
    rest.pending.length < source.pending.length := by
  simp only [readBodyLine] at h
  split at h
  next => contradiction
  next => simp at h
  next raw middle read =>
    have shorter := Source.readLine_lt read
    split at h
    next => simp_all
    next =>
      split at h
      next =>
        split at h
        next => contradiction
        next quoted =>
          simp only [Except.ok.injEq, Option.some.injEq, Prod.mk.injEq] at h
          obtain ⟨-, rfl⟩ := h
          have := readQuoted_le quoted
          omega
      next => split at h <;> simp_all

structure Block where
  /-- The trimmed label line. -/
  label : List UInt8
  /-- The first quoted text in the block. -/
  value : Option Span
  deriving DecidableEq, Repr

/--
Reads the lines of a block up to its end. The value is the first quoted text;
`none` tells that the data ended within the block.
-/
def readBody (value : Option Span) (source : Source) :
    Except Fault (Option (Option Span × Source)) :=
  match _h : readBodyLine source with
  | .error fault => .error fault
  | .ok none => .ok none
  | .ok (some (.quoted span, rest)) => readBody (value <|> some span) rest
  | .ok (some (.ending, rest)) => .ok (some (value, rest))
  | .ok (some (.other, rest)) => readBody value rest
termination_by source.pending.length
decreasing_by all_goals exact readBodyLine_lt _h

theorem readBody_le {value found : Option Span} {source rest : Source}
    (h : readBody value source = .ok (some (found, rest))) :
    rest.pending.length ≤ source.pending.length := by
  fun_induction readBody value source with
  | case1 => contradiction
  | case2 => simp at h
  | case3 value source span middle read ih =>
      exact Nat.le_trans (ih h) (Nat.le_of_lt (readBodyLine_lt read))
  | case4 value source middle read =>
      simp only [Except.ok.injEq, Option.some.injEq, Prod.mk.injEq] at h
      obtain ⟨-, rfl⟩ := h
      exact Nat.le_of_lt (readBodyLine_lt read)
  | case5 value source middle read ih =>
      exact Nat.le_trans (ih h) (Nat.le_of_lt (readBodyLine_lt read))

def readBlocks (source : Source) : Except LoadError (List Block) :=
  match _line : source.readLine with
  | .error fault => .error (.io fault)
  | .ok none => .ok []
  | .ok (some (line, rest)) =>
      let label := Text.trimEdges line
      if label = [] || isComment label then readBlocks rest
      else
        match _body : readBody none rest with
        | .error fault => .error (.io fault)
        | .ok none => .error (.missingEnd (Text.widen label))
        | .ok (some (value, rest)) =>
            match readBlocks rest with
            | .error e => .error e
            | .ok blocks => .ok ({ label, value } :: blocks)
termination_by source.pending.length
decreasing_by
  · exact Source.readLine_lt _line
  · have := Source.readLine_lt _line
    have := readBody_le _body
    omega

/-- The entry that a block defines; a block without quoted text has an empty phrase. -/
def Block.entry (block : Block) : Entry :=
  match block.value with
  | none => { label := Text.widen block.label }
  | some span =>
      { label := Text.widen block.label
        text := Text.squeeze (Text.unescape span.text)
        cue := Text.widen span.cue }

def load (source : Source) : Except LoadError Listing := do
  let blocks ← readBlocks source
  return Listing.ofBlocks (blocks.map Block.entry) 0

/-! ## Counting -/

/-- Room for more entries than the counting pass has seen. -/
def countMargin : Nat := 500

/--
The number of closing lines outside quoted text. Every line is read as one of a
block, label lines included.
-/
def countEndings (source : Source) : Except Fault Nat :=
  match _h : readBodyLine source with
  | .error fault => .error fault
  | .ok none => .ok 0
  | .ok (some (line, rest)) =>
      match countEndings rest with
      | .error fault => .error fault
      | .ok n => .ok (if line = .ending then n + 1 else n)
termination_by source.pending.length
decreasing_by exact readBodyLine_lt _h

def count (source : Source) : Except LoadError Nat :=
  match countEndings source with
  | .error fault => .error (.io fault)
  | .ok n => .ok (n + countMargin)

end Phrasebook.Plain

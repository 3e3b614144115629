import Phrasebook.Bytes.Source

/-!
# Quoted text

Quoted text starts after its opening quote and may run over several lines. It
ends at the first double quote that no backslash escapes; the rest of that line
may name a speech cue. The sentinel byte ends it at once, unclosed.

The scanner is a machine that takes one byte at a time, so that it can be fed
the rest of a line that has already been read and then the source itself.
-/

namespace Phrasebook.Plain

open Bytes

structure Span where
  /-- The bytes between the quotes, escapes untouched, each white space as a space. -/
  text : List UInt8 := []
  /-- The speech cue, empty when the line names none. -/
  cue : List UInt8 := []
  closed : Bool := false
  deriving DecidableEq, Repr

inductive Phase
  /-- Between the quotes; the flag tells whether the next byte is escaped. -/
  | inText (escaped : Bool)
  /-- Behind the closing quote; the flag tells whether an equals sign was passed. -/
  | beforeCue (equalsSeen : Bool)
  | inCue
  /-- Behind the cue, on the same line. -/
  | afterCue
  /-- Nothing more belongs to the quoted text. -/
  | done
  deriving DecidableEq, Repr

structure Scan where
  phase : Phase := .inText false
  text : Array UInt8 := #[]
  cue : Array UInt8 := #[]
  closed : Bool := false
  deriving DecidableEq, Repr

namespace Scan

/-- White space of every kind is kept as a space. -/
def plainSpace (b : UInt8) : UInt8 := if isSpace b then space else b

/-- Takes a byte between the quotes. A newline also ends an escape. -/
def stepText (escaped : Bool) (b : UInt8) (scan : Scan) : Scan :=
  if b = sentinel then { scan with phase := .done }
  else if b = backslash then
    { scan with phase := .inText (!escaped), text := scan.text.push b }
  else if b = quote && !escaped then { scan with phase := .beforeCue false, closed := true }
  else { scan with phase := .inText false, text := scan.text.push (plainSpace b) }

def stepCue (b : UInt8) (scan : Scan) : Scan :=
  if isCueByte b then { scan with phase := .inCue, cue := scan.cue.push b }
  else { scan with phase := .afterCue }

def step (b : UInt8) (scan : Scan) : Scan :=
  match scan.phase with
  | .inText escaped => scan.stepText escaped b
  | .done => scan
  | phase =>
      if b = newline || b = sentinel then { scan with phase := .done }
      else
        match phase with
        | .beforeCue equalsSeen =>
            if isSpace b then scan
            else if b = equals && !equalsSeen then { scan with phase := .beforeCue true }
            else scan.stepCue b
        | .inCue => scan.stepCue b
        | _ => scan

/-- Takes bytes until the quoted text is done, and gives back those not taken. -/
def feed (scan : Scan) : List UInt8 → Scan × List UInt8
  | [] => (scan, [])
  | b :: rest => if scan.phase = .done then (scan, b :: rest) else (scan.step b).feed rest

/-- A cue that ends in a digit is known by a name with `e` behind it. -/
def cueName (cue : List UInt8) : List UInt8 :=
  match cue.getLast? with
  | some last => if isDigit last then cue ++ [0x65] else cue
  | none => cue

def finish (scan : Scan) : Span where
  text := scan.text.toList
  cue := cueName scan.cue.toList
  closed := scan.closed

theorem length_feed_le (scan : Scan) (bytes : List UInt8) :
    (scan.feed bytes).2.length ≤ bytes.length := by
  induction bytes generalizing scan with
  | nil => simp [feed]
  | cons b rest ih =>
      rw [feed]
      split
      · exact Nat.le_refl _
      · exact Nat.le_succ_of_le (ih _)

end Scan

/--
Reads quoted text whose opening quote has been passed: first from the rest of
the line that held the quote, then from the source. What is left of that line is
dropped.
-/
def readQuoted (lineRest : List UInt8) (source : Source) : Except Fault (Span × Source) :=
  let (scan, _) := Scan.feed {} lineRest
  let (scan, rest) := scan.feed source.pending
  if scan.phase = .done then .ok (scan.finish, { source with pending := rest })
  else
    match source.fault with
    | some fault => .error fault
    | none => .ok (scan.finish, source.exhausted)

theorem readQuoted_le {lineRest : List UInt8} {source rest : Source} {span : Span}
    (h : readQuoted lineRest source = .ok (span, rest)) :
    rest.pending.length ≤ source.pending.length := by
  simp only [readQuoted] at h
  split at h
  next =>
    simp only [Except.ok.injEq, Prod.mk.injEq] at h
    obtain ⟨-, rfl⟩ := h
    exact Scan.length_feed_le _ _
  next =>
    split at h
    next => contradiction
    next =>
      simp only [Except.ok.injEq, Prod.mk.injEq] at h
      obtain ⟨-, rfl⟩ := h
      simp [Source.exhausted]

end Phrasebook.Plain

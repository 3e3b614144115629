import Phrasebook.Bytes.Marks

/-!
# Sources of bytes

A source delivers its pending bytes in order and then either ends or fails: a
fault is met by the first read that asks for more than is pending. Readers take
a source and give back the source that remains.
-/

namespace Phrasebook.Bytes

/-- Why a source cannot be read any further; an interrupted call, which is made again, is none. -/
structure Fault where
  text : String
  /-- The system reports it as an unexpected end of the data. -/
  endOfData : Bool := false
  deriving DecidableEq, Repr

structure Source where
  pending : List UInt8
  /-- What a read beyond them meets: a fault, or the end of the data. -/
  fault : Option Fault := none
  deriving DecidableEq, Repr

namespace Source

def ofBytes (bytes : List UInt8) : Source := { pending := bytes }

/-- A source that fails at a position of the data; a position past the end is never reached. -/
def failingAt (position : Nat) (fault : Fault) (bytes : List UInt8) : Source :=
  if position ≤ bytes.length then { pending := bytes.take position, fault := some fault }
  else ofBytes bytes

/-- The source after a failed read, which has used up everything before the fault. -/
def exhausted (source : Source) : Source := { source with pending := [] }

def readAll (source : Source) : Except Fault (List UInt8) :=
  match source.fault with
  | some fault => .error fault
  | none => .ok source.pending

def split? (count : Nat) (source : Source) : Option (List UInt8 × Source) :=
  let front := source.pending.take count
  if front.length = count then some (front, { source with pending := source.pending.drop count })
  else none

def breakLine? (bytes : List UInt8) : Option (List UInt8 × List UInt8) :=
  match bytes.dropWhile (· != newline) with
  | [] => none
  | _ :: rest => some (bytes.takeWhile (· != newline), rest)

/--
The next line without its newline, which the last line may lack; `none` when no
byte is left.
-/
def readLine (source : Source) : Except Fault (Option (List UInt8 × Source)) :=
  match breakLine? source.pending with
  | some (line, rest) => .ok (some (line, { source with pending := rest }))
  | none =>
      match source.fault with
      | some fault => .error fault
      | none =>
          if source.pending = [] then .ok none
          else .ok (some (source.pending, { source with pending := [] }))

theorem split?_eq_some {count : Nat} {source rest : Source} {front : List UInt8}
    (h : source.split? count = some (front, rest)) :
    front.length = count ∧ source.pending = front ++ rest.pending ∧ rest.fault = source.fault := by
  simp only [split?] at h
  split at h
  next enough =>
    simp only [Option.some.injEq, Prod.mk.injEq] at h
    obtain ⟨rfl, rfl⟩ := h
    exact ⟨enough, (List.take_append_drop count source.pending).symm, rfl⟩
  next => contradiction

theorem length_of_breakLine? {bytes line rest : List UInt8}
    (h : breakLine? bytes = some (line, rest)) : line.length + rest.length + 1 = bytes.length := by
  simp only [breakLine?] at h
  split at h
  next => contradiction
  next eq =>
    simp only [Option.some.injEq, Prod.mk.injEq] at h
    obtain ⟨rfl, rfl⟩ := h
    have whole := congrArg List.length
      (List.takeWhile_append_dropWhile (p := (· != newline)) (l := bytes))
    rw [eq] at whole
    simp only [List.length_append, List.length_cons] at whole
    omega

theorem readLine_lt {source rest : Source} {line : List UInt8}
    (h : source.readLine = .ok (some (line, rest))) :
    rest.pending.length < source.pending.length := by
  simp only [readLine] at h
  split at h
  next broken =>
    simp only [Except.ok.injEq, Option.some.injEq, Prod.mk.injEq] at h
    obtain ⟨rfl, rfl⟩ := h
    have := length_of_breakLine? broken
    simp only
    omega
  next =>
    split at h
    next => contradiction
    next =>
      split at h
      next => simp at h
      next some_left =>
        simp only [Except.ok.injEq, Option.some.injEq, Prod.mk.injEq] at h
        obtain ⟨rfl, rfl⟩ := h
        simpa using List.length_pos_iff.mpr some_left

end Source

end Phrasebook.Bytes

import Phrasebook.Compiled.Layout
import Phrasebook.Error

/-!
# Reading the parts of a compiled file

A reader takes its part from the front of a source. There are two ways to read a
known number of bytes, which differ in what they make of a fault that the system
calls an unexpected end of the data: for a field of fixed size it is a truncated
file, for a run of bytes whose length the file gives it is a failed read.

The main statement, `Consumes.bind`, lets every reader built from these parts
inherit that it removes bytes from the front and nothing else.
-/

namespace Phrasebook.Compiled

open Bytes

abbrev Reader := StateT Source (Except LoadError)

def readField (size : Nat) (part : String) : Reader (List UInt8) := fun source =>
  match source.split? size with
  | some taken => .ok taken
  | none =>
      match source.fault with
      | none => .error (.truncated part)
      | some fault => .error (if fault.endOfData then .truncated part else .io fault)

def readRun (length : Nat) (part : String) : Reader (List UInt8) := fun source =>
  match source.split? length with
  | some taken => .ok taken
  | none =>
      match source.fault with
      | none => .error (.truncated part)
      | some fault => .error (.io fault)

def readWord (part : String) : Reader UInt32 := do
  return wordOfBytes (← readField 4 part)

/-- Reads the mark of the next block; `none` when the data ends before it does. -/
def readMark : Reader (Option (List UInt8)) := fun source =>
  match source.split? markSize with
  | some (mark, rest) => .ok (some mark, rest)
  | none =>
      match source.fault with
      | none => .ok (none, source.exhausted)
      | some fault => .error (.io fault)

/-! ## What readers consume -/

/-- The reader takes its part from the front of the source and leaves the rest as it was. -/
def Consumes (reader : Reader α) : Prop :=
  ∀ source value rest, reader source = .ok (value, rest) →
    (∃ used, source.pending = used ++ rest.pending) ∧ rest.fault = source.fault

namespace Consumes

theorem pure (a : α) : Consumes (Pure.pure a : Reader α) := by
  intro source value rest h
  cases h
  exact ⟨⟨[], rfl⟩, rfl⟩

theorem throw (e : LoadError) : Consumes (MonadExcept.throw e : Reader α) := by
  intro source value rest h
  cases h

theorem bind {reader : Reader α} {next : α → Reader β} (first : Consumes reader)
    (second : ∀ a, Consumes (next a)) : Consumes (reader >>= next) := by
  intro source value rest h
  simp only [Bind.bind, StateT.bind, Except.bind] at h
  split at h
  next => contradiction
  next pair read =>
    obtain ⟨⟨used, split⟩, kept⟩ := first _ _ _ read
    obtain ⟨⟨more, splitMore⟩, keptMore⟩ := second _ _ _ _ h
    exact ⟨⟨used ++ more, by rw [split, splitMore, List.append_assoc]⟩, keptMore.trans kept⟩

theorem readField (size : Nat) (part : String) : Consumes (readField size part) := by
  intro source value rest h
  simp only [Compiled.readField] at h
  split at h
  next taken eq =>
    cases h
    obtain ⟨-, split, kept⟩ := Source.split?_eq_some eq
    exact ⟨⟨_, split⟩, kept⟩
  next => split at h <;> contradiction

theorem readRun (length : Nat) (part : String) : Consumes (readRun length part) := by
  intro source value rest h
  simp only [Compiled.readRun] at h
  split at h
  next taken eq =>
    cases h
    obtain ⟨-, split, kept⟩ := Source.split?_eq_some eq
    exact ⟨⟨_, split⟩, kept⟩
  next => split at h <;> contradiction

theorem readWord (part : String) : Consumes (readWord part) :=
  bind (readField 4 part) fun _ => pure _

theorem length_le {reader : Reader α} (consumes : Consumes reader) {source rest : Source}
    {value : α} (h : reader source = .ok (value, rest)) :
    rest.pending.length ≤ source.pending.length := by
  obtain ⟨⟨used, split⟩, -⟩ := consumes _ _ _ h
  simp [split]

end Consumes

theorem readMark_lt {source rest : Source} {mark : List UInt8}
    (h : readMark source = .ok (some mark, rest)) :
    rest.pending.length < source.pending.length := by
  simp only [readMark] at h
  split at h
  next eq =>
    cases h
    obtain ⟨size, split, -⟩ := Source.split?_eq_some eq
    simp only [split, List.length_append, markSize] at size ⊢
    omega
  next => split at h <;> simp_all

end Phrasebook.Compiled

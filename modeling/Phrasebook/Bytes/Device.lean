import Phrasebook.Bytes.Source

/-!
# Devices

A device answers one read call after another, with a byte or with an error. A
call that was interrupted is made again, as often as it takes, so that readers
see a device as a source from which the interruptions are gone. A device that
does nothing but interrupt is no source at all: its readers wait for ever.
-/

namespace Phrasebook.Bytes

inductive ErrorKind
  | interrupted
  | endOfData
  | other
  deriving DecidableEq, Repr

structure ReadError where
  text : String
  kind : ErrorKind := .other
  deriving DecidableEq, Repr

def ReadError.fault (e : ReadError) : Fault where
  text := e.text
  endOfData := e.kind = .endOfData

inductive Reading
  | byte (b : UInt8)
  | ended
  | failed (e : ReadError)
  deriving DecidableEq, Repr

abbrev Device := Nat → Reading

namespace Device

/-- Delivers bytes, with an interruption for each `none` between them, and then fails every call. -/
def failingAfter (front : List (Option UInt8)) (e : ReadError) : Device := fun turn =>
  match front[turn]? with
  | some (some b) => .byte b
  | some none => .failed { text := "interrupted", kind := .interrupted }
  | none => .failed e

/--
The sources that a reader may still have before it after this many calls. An
interrupted call is made again; what the calls have not shown may be anything.
-/
inductive Allows (device : Device) : (calls turn : Nat) → Source → Prop
  | unseen {turn : Nat} (source : Source) : Allows device 0 turn source
  | byte {calls turn : Nat} {b : UInt8} {rest : Source} (answer : device turn = .byte b)
      (next : Allows device calls (turn + 1) rest) :
      Allows device (calls + 1) turn { rest with pending := b :: rest.pending }
  | ended {calls turn : Nat} (answer : device turn = .ended) :
      Allows device (calls + 1) turn { pending := [] }
  | interrupted {calls turn : Nat} {e : ReadError} {source : Source}
      (answer : device turn = .failed e) (again : e.kind = .interrupted)
      (next : Allows device calls (turn + 1) source) : Allows device (calls + 1) turn source
  | failed {calls turn : Nat} {e : ReadError} (answer : device turn = .failed e)
      (final : e.kind ≠ .interrupted) :
      Allows device (calls + 1) turn { pending := [], fault := some e.fault }

/-- After some number of calls the result is settled, whatever further calls would show. -/
def Returns {α : Type} (read : Source → α) (device : Device) (result : α) : Prop :=
  ∃ calls, ∀ source, Allows device calls 0 source → read source = result

def source? (device : Device) : (calls turn : Nat) → Option Source
  | 0, _ => none
  | calls + 1, turn =>
      match device turn with
      | .byte b =>
          (source? device calls (turn + 1)).map fun rest =>
            { rest with pending := b :: rest.pending }
      | .ended => some { pending := [] }
      | .failed e =>
          if e.kind = .interrupted then source? device calls (turn + 1)
          else some { pending := [], fault := some e.fault }

end Device

end Phrasebook.Bytes

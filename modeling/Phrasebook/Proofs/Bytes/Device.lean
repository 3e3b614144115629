import Mathlib.Data.List.ReduceOption
import Phrasebook.Bytes.Device
import Phrasebook.Proofs.Compiled.Front

/-!
# What readers see of a device

A device that comes to an end is a source to its readers, however often they were
interrupted. Of a device that interrupts for ever they see no more than the bytes
before that, which any other bytes may follow.
-/

namespace Phrasebook.Bytes.Device

variable {device : Device} {source : Source}

/-! ## One call -/

section Call

variable {calls turn : Nat}

theorem allows_byte_iff {b : UInt8} (answer : device turn = .byte b) :
    Allows device (calls + 1) turn source ↔
      ∃ rest, Allows device calls (turn + 1) rest ∧
        source = { rest with pending := b :: rest.pending } := by
  constructor
  · intro allowed
    cases allowed with
    | byte same next =>
        cases answer.symm.trans same
        exact ⟨_, next, rfl⟩
    | ended same | interrupted same | failed same => cases answer.symm.trans same
  · rintro ⟨rest, next, rfl⟩
    exact .byte answer next

theorem allows_ended_iff (answer : device turn = .ended) :
    Allows device (calls + 1) turn source ↔ source = { pending := [] } := by
  constructor
  · intro allowed
    cases allowed with
    | ended => rfl
    | byte same | interrupted same | failed same => cases answer.symm.trans same
  · rintro rfl
    exact .ended answer

theorem allows_failed_iff {e : ReadError} (answer : device turn = .failed e) :
    Allows device (calls + 1) turn source ↔
      if e.kind = .interrupted then Allows device calls (turn + 1) source
      else source = { pending := [], fault := some e.fault } := by
  split
  next again =>
    constructor
    · intro allowed
      cases allowed with
      | interrupted _ _ next => exact next
      | failed same final =>
          cases answer.symm.trans same
          exact absurd again final
      | byte same | ended same => cases answer.symm.trans same
    · exact .interrupted answer again
  next final =>
    constructor
    · intro allowed
      cases allowed with
      | failed same =>
          cases answer.symm.trans same
          rfl
      | interrupted same again =>
          cases answer.symm.trans same
          exact absurd again final
      | byte same | ended same => cases answer.symm.trans same
    · rintro rfl
      exact .failed answer final

end Call

theorem allows_iff_of_source? {calls turn : Nat} (settled : device.source? calls turn = some source)
    (other : Source) : Allows device calls turn other ↔ other = source := by
  induction calls generalizing turn source other with
  | zero => cases settled
  | succ calls ih =>
      rw [source?] at settled
      cases answer : device turn with
      | byte b =>
          rw [answer] at settled
          obtain ⟨rest, following, rfl⟩ := Option.map_eq_some_iff.mp settled
          simp only [allows_byte_iff answer, ih following, exists_eq_left]
      | ended =>
          rw [answer] at settled
          cases settled
          exact allows_ended_iff answer
      | failed e =>
          rw [answer] at settled
          dsimp only at settled
          rw [allows_failed_iff answer]
          split at settled
          next again =>
            rw [if_pos again]
            exact ih settled other
          next final =>
            cases settled
            rw [if_neg final]

theorem returns_of_source? {α : Type} {calls : Nat} (settled : device.source? calls 0 = some source)
    (read : Source → α) : Returns read device (read source) := by
  refine ⟨calls, ?_⟩
  intro other allowed
  rw [(allows_iff_of_source? settled other).mp allowed]

theorem Allows.of_more {more calls turn : Nat}
    (allowed : Allows device (calls + more) turn source) : Allows device calls turn source := by
  induction calls generalizing turn source with
  | zero => exact .unseen source
  | succ calls ih =>
      rw [Nat.add_right_comm] at allowed
      cases allowed with
      | byte answer next => exact .byte answer (ih next)
      | ended answer => exact .ended answer
      | interrupted answer again next => exact .interrupted answer again (ih next)
      | failed answer final => exact .failed answer final

theorem exists_allows (device : Device) (calls turn : Nat) :
    ∃ source, Allows device calls turn source := by
  induction calls generalizing turn with
  | zero => exact ⟨{ pending := [] }, .unseen _⟩
  | succ calls ih =>
      obtain ⟨rest, next⟩ := ih (turn + 1)
      cases answer : device turn with
      | byte b => exact ⟨_, .byte answer next⟩
      | ended => exact ⟨_, .ended answer⟩
      | failed e =>
          by_cases again : e.kind = .interrupted
          · exact ⟨rest, .interrupted answer again next⟩
          · exact ⟨_, .failed answer again⟩

theorem Returns.unique {α : Type} {read : Source → α} {first second : α}
    (one : Returns read device first) (two : Returns read device second) : first = second := by
  obtain ⟨calls, first⟩ := one
  obtain ⟨more, second⟩ := two
  obtain ⟨source, allowed⟩ := exists_allows device (calls + more) 0
  rw [← first source allowed.of_more]
  rw [Nat.add_comm] at allowed
  exact second source allowed.of_more

/-! ## Devices that fail every call -/

def FailsFrom (device : Device) (turn : Nat) (front : List (Option UInt8)) (e : ReadError) : Prop :=
  ∀ later, device (turn + later) = failingAfter front e later

section Failing

variable {front : List (Option UInt8)} {e : ReadError} {turn : Nat}

theorem failsFrom_failingAfter (front : List (Option UInt8)) (e : ReadError) :
    FailsFrom (failingAfter front e) 0 front e := by
  intro later
  rw [Nat.zero_add]

namespace FailsFrom

theorem tail {first : Option UInt8} (fails : FailsFrom device turn (first :: front) e) :
    FailsFrom device (turn + 1) front e := by
  intro later
  rw [Nat.add_assoc, Nat.add_comm 1 later]
  exact fails (later + 1)

theorem later (fails : FailsFrom device turn [] e) : FailsFrom device (turn + 1) [] e := by
  intro more
  rw [Nat.add_assoc]
  exact fails (1 + more)

theorem answer_nil (fails : FailsFrom device turn [] e) : device turn = .failed e := fails 0

theorem answer_byte {b : UInt8} (fails : FailsFrom device turn (some b :: front) e) :
    device turn = .byte b :=
  fails 0

theorem answer_interrupted (fails : FailsFrom device turn (none :: front) e) :
    device turn = .failed { text := "interrupted", kind := .interrupted } :=
  fails 0

theorem source?_eq (fails : FailsFrom device turn front e) (final : e.kind ≠ .interrupted) :
    device.source? (front.length + 1) turn =
      some { pending := front.reduceOption, fault := some e.fault } := by
  induction front generalizing turn with
  | nil =>
      rw [List.length_nil, source?, fails.answer_nil]
      exact if_neg final
  | cons first front ih =>
      have following := ih fails.tail
      rw [List.length_cons, source?]
      cases first with
      | some b =>
          rw [fails.answer_byte]
          dsimp only
          rw [following, List.reduceOption_cons_of_some]
          rfl
      | none =>
          rw [fails.answer_interrupted]
          dsimp only
          rw [if_pos rfl, following, List.reduceOption_cons_of_none]

/-- Behind the bytes before an endless interruption, everything is possible. -/
theorem allows (fails : FailsFrom device turn front e) (endless : e.kind = .interrupted)
    (next : Source) (calls : Nat) :
    Allows device calls turn ((Source.ofBytes front.reduceOption).followedBy next) := by
  induction calls generalizing turn front with
  | zero => exact .unseen _
  | succ calls ih =>
      cases front with
      | nil => exact .interrupted fails.answer_nil endless (ih fails.later)
      | cons first front =>
          have rest := ih fails.tail
          cases first with
          | some b => exact .byte fails.answer_byte rest
          | none => exact .interrupted fails.answer_interrupted rfl rest

/-- As many calls as there are answers before the failures show all the bytes. -/
theorem exists_next_of_allows (fails : FailsFrom device turn front e)
    (allowed : Allows device front.length turn source) :
    ∃ next, source = (Source.ofBytes front.reduceOption).followedBy next := by
  induction front generalizing turn source with
  | nil => exact ⟨source, rfl⟩
  | cons first front ih =>
      cases first with
      | some b =>
          obtain ⟨rest, following, rfl⟩ := (allows_byte_iff fails.answer_byte).mp allowed
          obtain ⟨next, rfl⟩ := ih fails.tail following
          exact ⟨next, rfl⟩
      | none =>
          have following := (allows_failed_iff fails.answer_interrupted).mp allowed
          rw [if_pos rfl] at following
          exact ih fails.tail following

end FailsFrom

end Failing

end Phrasebook.Bytes.Device

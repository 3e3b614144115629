import Phrasebook.Proofs.Bytes.Device
import Phrasebook.Proofs.Faults

/-!
# Devices that fail

A device that fails every call from some point on is read like a source with that
fault, unless its failure is an interruption, which is no reason to stop. Then
nothing is returned that the bytes before it do not decide
(`returns_failingAfter`).
-/

namespace Phrasebook

open Bytes

namespace Compiled

open Device

variable {device : Device} {result : Except LoadError Listing}

theorem isDecided_of_load_eq {bytes : List UInt8}
    (same : ∀ fault, load { pending := bytes, fault := some fault } = result) :
    isDecided result = true := by
  by_contra undecided
  have met (fault : Fault) (plain : fault.endOfData = false) : result = .error (.io fault) := by
    have found := @load_of_fault { pending := bytes, fault := some fault } fault rfl
    rw [same fault, if_neg undecided, plain] at found
    simpa using found
  have one := met { text := "" } rfl
  have two := met { text := "other" } rfl
  exact absurd (one.symm.trans two) (by decide)

theorem load_followedBy_of_decided {bytes : List UInt8} {fault : Fault}
    (decided : isDecided (load { pending := bytes, fault := some fault }) = true) (next : Source) :
    load ((Source.ofBytes bytes).followedBy next) =
      load { pending := bytes, fault := some fault } := by
  have found := @load_of_fault { pending := bytes, fault := some fault } fault rfl
  rw [if_pos decided] at found
  exact found next

theorem returns_load_of_endless {front : List (Option UInt8)} {e : ReadError}
    (endless : e.kind = .interrupted) (fault : Fault) :
    Returns load (.failingAfter front e) result ↔
      isDecided result = true ∧
        load { pending := front.reduceOption, fault := some fault } = result := by
  have fails := failsFrom_failingAfter front e
  constructor
  · rintro ⟨calls, settled⟩
    have behind (fault : Fault) :
        load { pending := front.reduceOption, fault := some fault } = result := by
      have allowed := fails.allows endless { pending := [], fault := some fault } calls
      rw [← settled _ allowed, Source.followedBy, Source.prepend, List.append_nil]
      rfl
    exact ⟨isDecided_of_load_eq behind, behind fault⟩
  · rintro ⟨decided, rfl⟩
    refine ⟨front.length, ?_⟩
    intro source allowed
    obtain ⟨next, rfl⟩ := fails.exists_next_of_allows allowed
    exact load_followedBy_of_decided decided next

end Compiled

/-! ## Devices that fail -/

/-- Reading goes on to the very end, so that a fault is always met. -/
def ReadsToEnd {α : Type} (read : Source → Except LoadError α) : Prop :=
  ∀ source fault, source.fault = some fault → read source = .error (.io fault)

theorem Plain.readsToEnd_count : ReadsToEnd count := by
  intro source fault faulty
  rw [count, countEndings_of_fault faulty]

theorem Plain.readsToEnd_load : ReadsToEnd load := by
  intro source fault faulty
  rw [load, readBlocks_of_fault faulty]
  rfl

section Failing

open Device

variable {front : List (Option UInt8)} {e : ReadError}

theorem returns_of_final {α : Type} (read : Source → α) (final : e.kind ≠ .interrupted) :
    Returns read (.failingAfter front e)
      (read { pending := front.reduceOption, fault := some e.fault }) :=
  returns_of_source? ((failsFrom_failingAfter front e).source?_eq final) read

theorem ReadsToEnd.returns_iff {α : Type} {read : Source → Except LoadError α}
    (toEnd : ReadsToEnd read) {result : Except LoadError α} :
    Returns read (.failingAfter front e) result ↔
      e.kind ≠ .interrupted ∧ result = .error (.io e.fault) := by
  by_cases endless : e.kind = .interrupted
  · refine iff_of_false ?_ fun both => both.1 endless
    rintro ⟨calls, settled⟩
    have met (fault : Fault) : .error (.io fault) = result := by
      rw [← settled _ ((failsFrom_failingAfter front e).allows endless
        { pending := [], fault := some fault } calls)]
      exact (toEnd _ _ rfl).symm
    have same := (met { text := "" }).trans (met { text := "other" }).symm
    simp at same
  · have found : Returns read (.failingAfter front e) _ := returns_of_final read endless
    rw [toEnd _ e.fault rfl] at found
    exact ⟨fun returns => ⟨endless, returns.unique found⟩, fun both => both.2 ▸ found⟩

/-- What a compiled file gives is decided by its bytes, or else it tells how the device failed. -/
theorem Compiled.load_of_returns {result : Except LoadError Listing}
    (returns : Returns Compiled.load (.failingAfter front e) result) :
    if isDecided result then
      ∀ other, front.reduceOption <+: other → Compiled.load (.ofBytes other) = result
    else e.kind ≠ .interrupted ∧
      (result = .error (.io e.fault) ∨
        e.kind = .endOfData ∧ ∃ part, result = .error (.truncated part)) := by
  have everywhere (decided : isDecided result = true)
      (same : Compiled.load { pending := front.reduceOption, fault := some e.fault } = result) :
      ∀ other, front.reduceOption <+: other → Compiled.load (.ofBytes other) = result := by
    rintro other ⟨rest, rfl⟩
    rw [← same] at decided ⊢
    exact load_followedBy_of_decided decided (.ofBytes rest)
  by_cases endless : e.kind = .interrupted
  · obtain ⟨decided, same⟩ := (returns_load_of_endless endless e.fault).mp returns
    rw [if_pos decided]
    exact everywhere decided same
  · have same := (returns_of_final Compiled.load endless).unique returns
    split
    next decided => exact everywhere decided same
    next undecided =>
      have found := @load_of_fault
        { pending := front.reduceOption, fault := some e.fault } e.fault rfl
      rw [same, if_neg undecided] at found
      exact ⟨endless, found.imp id fun ⟨ends, cut⟩ => ⟨of_decide_eq_true ends, cut⟩⟩

/--
A device delivers the first `n` bytes of some data, with any number of
interruptions between them, and then fails every call with one error. Plain files
are neither counted nor loaded: the error is reported, unless it is one more
interruption, in which case they are waited for in vain. What is loaded from a
compiled file all data with these `n` bytes give, or else the error is reported.
-/
theorem returns_failingAfter (data : List UInt8) (n : Nat) (front : List (Option UInt8))
    (delivers : front.reduceOption = data.take n) (e : ReadError) :
    let device := failingAfter front e
    (∀ result, Returns Plain.count device result ↔
      e.kind ≠ .interrupted ∧ result = .error (.io e.fault)) ∧
    (∀ result, Returns Plain.load device result ↔
      e.kind ≠ .interrupted ∧ result = .error (.io e.fault)) ∧
    ((∃ result, Returns Compiled.load device result) ↔
      e.kind ≠ .interrupted ∨
        Compiled.isDecided
          (Compiled.load { pending := data.take n, fault := some e.fault }) = true) ∧
    ∀ result, Returns Compiled.load device result →
      if Compiled.isDecided result then
        ∀ other, data.take n <+: other → Compiled.load (.ofBytes other) = result
      else e.kind ≠ .interrupted ∧
        (result = .error (.io e.fault) ∨
          e.kind = .endOfData ∧ ∃ part, result = .error (.truncated part)) := by
  rw [← delivers]
  refine ⟨fun _ => Plain.readsToEnd_count.returns_iff, fun _ => Plain.readsToEnd_load.returns_iff,
    ⟨?_, ?_⟩, fun _ => Compiled.load_of_returns⟩
  · rintro ⟨result, returns⟩
    by_cases endless : e.kind = .interrupted
    · obtain ⟨decided, same⟩ := (Compiled.returns_load_of_endless endless e.fault).mp returns
      rw [same]
      exact .inr decided
    · exact .inl endless
  · intro either
    by_cases endless : e.kind = .interrupted
    · have decided := either.resolve_left fun final => final endless
      exact ⟨_, (Compiled.returns_load_of_endless endless e.fault).mpr ⟨decided, rfl⟩⟩
    · exact ⟨_, returns_of_final Compiled.load endless⟩

/-- One block, and behind it a mark that is not the mark of a block. -/
def decidedFile : List UInt8 :=
  Compiled.print [{ label := "A", text := "a" }] 7 ++ Compiled.fileMark

/--
Interrupted once at its beginning, and for ever behind its last mark, the file is
decided all the same; a plain file is waited for in vain.
-/
theorem returns_failingAfter_behind_mark :
    let front := none :: decidedFile.map some
    let endless : ReadError := { text := "interrupted", kind := .interrupted }
    front.reduceOption = decidedFile.take 51 ∧
      (∀ result, ¬Returns Plain.load (failingAfter front endless) result) ∧
      (∃ result, Returns Compiled.load (failingAfter front endless) result) ∧
      Returns Plain.count (failingAfter front { text := "broken" })
        (.error (.io { text := "broken" })) := by
  intro front endless
  have delivers : front.reduceOption = decidedFile.take 51 := by decide
  have loaded : Compiled.load
      { pending := decidedFile.take 51, fault := some endless.fault } =
      .ok { entries := [{ label := "A", text := "a" }], maxLabelLen := 1, languageId := 7 } := by
    cbv
  obtain ⟨-, plain, compiled, -⟩ := returns_failingAfter decidedFile 51 front delivers endless
  obtain ⟨counted, -⟩ := returns_failingAfter decidedFile 51 front delivers { text := "broken" }
  refine ⟨delivers, ?_, compiled.mpr (.inr (by rw [loaded]; rfl)), (counted _).mpr ⟨?_, rfl⟩⟩
  · intro result returns
    exact ((plain result).mp returns).1 rfl
  · decide

/-- A device that is interrupted for ever reports no error, of whatever kind it is. -/
theorem not_returns_io_of_failing :
    ¬∀ (data : List UInt8) (n : Nat) (e : ReadError), n ≤ data.length →
      Returns Plain.count (failingAfter ((data.take n).map some) e) (.error (.io e.fault)) := by
  intro always
  have reported := always [] 0 { text := "interrupted", kind := .interrupted } (Nat.le_refl 0)
  exact (Plain.readsToEnd_count.returns_iff.mp reported).1 rfl

end Failing

end Phrasebook

import Phrasebook.Proofs.Compiled.Grammar

/-!
# The front of a compiled file

A reader that is given the front of a file does what it does with the whole, as
long as it does not come to the end of the front. There it fails, and how it
fails tells that the data ended: with a part that is cut short, or with the
fault that ended the source. The one reader that may come to the end without a
failure is that of a mark, so that only the number of blocks depends on where
the data ends.

`Foretells` relates what the front gives to what the whole gives. It is shown
for each reader in turn and composed by `Extends.bind`; `load_foretells` says
what follows for files.
-/

namespace Phrasebook.Compiled

open Bytes

/-! ## Failures -/

/-- The bytes that were read are wrong, whatever stands behind them. -/
def isVerdict : LoadError → Bool
  | .badMagic _ | .unknownTag _ _ => true
  | _ => false

/-- How a reader fails that comes to the end of a source, which may be a fault. -/
inductive EndsIn : Option Fault → LoadError → Prop
  | data (part : String) : EndsIn none (.truncated part)
  | fault (fault : Fault) : EndsIn (some fault) (.io fault)
  | endOfData {fault : Fault} (part : String) (ends : fault.endOfData = true) :
      EndsIn (some fault) (.truncated part)

/--
What the front of some data gives, beside what the whole gives: a value that
carries over to the whole, a failure that the whole has as well, or a failure
that tells of the end of the front.
-/
inductive Foretells (fault : Option Fault) (carries : α → Except LoadError α → Prop) :
    Except LoadError α → Except LoadError α → Prop
  | found {value : α} {whole : Except LoadError α} (same : carries value whole) :
      Foretells fault carries (.ok value) whole
  | refused {e : LoadError} (verdict : isVerdict e = true) :
      Foretells fault carries (.error e) (.error e)
  | ended {e : LoadError} (ends : EndsIn fault e) (whole : Except LoadError α) :
      Foretells fault carries (.error e) whole

section Foretells

variable {fault : Option Fault} {carries : α → Except LoadError α → Prop}
  {whole : Except LoadError α}

theorem foretells_ok_iff {value : α} :
    Foretells fault carries (.ok value) whole ↔ carries value whole := by
  constructor
  · intro foretold
    cases foretold with
    | found same => exact same
  · exact .found

theorem foretells_error_iff {e : LoadError} :
    Foretells fault carries (.error e) whole ↔
      isVerdict e = true ∧ whole = .error e ∨ EndsIn fault e := by
  constructor
  · intro foretold
    cases foretold with
    | refused verdict => exact .inl ⟨verdict, rfl⟩
    | ended ends => exact .inr ends
  · rintro (⟨verdict, rfl⟩ | ends)
    · exact .refused verdict
    · exact .ended ends whole

theorem Foretells.bind {front : Except LoadError α} (foretold : Foretells fault carries front whole)
    {carried : β → Except LoadError β → Prop} {next : α → Except LoadError β}
    (each : ∀ value whole, carries value whole →
      Foretells fault carried (next value) (whole.bind next)) :
    Foretells fault carried (front.bind next) (whole.bind next) := by
  cases foretold with
  | found same => exact each _ _ same
  | refused verdict => exact .refused verdict
  | ended ends => exact .ended ends _

end Foretells

/-! ## Readers -/

/-- The whole gives the same value and leaves the same rest, followed by what the front lacks. -/
def Resumes (fault : Option Fault) (next : Source) (found : α × Source)
    (whole : Except LoadError (α × Source)) : Prop :=
  found.2.fault = fault ∧ whole = .ok (found.1, found.2.followedBy next)

/-- What the reader makes of a source, it makes of every source that goes on behind it. -/
def Extends (reader : Reader α) : Prop :=
  ∀ source next, Foretells source.fault (Resumes source.fault next) (reader source)
    (reader (source.followedBy next))

namespace Extends

theorem pure (a : α) : Extends (Pure.pure a) := fun _ _ => .found ⟨rfl, rfl⟩

theorem throw {e : LoadError} (verdict : isVerdict e = true) :
    Extends (MonadExcept.throw e : Reader α) := fun _ _ => .refused verdict

theorem bind {reader : Reader α} {next : α → Reader β} (first : Extends reader)
    (second : ∀ a, Extends (next a)) : Extends (reader >>= next) := by
  intro source behind
  have step (s : Source) :
      (reader >>= next) s = (reader s).bind fun pair => next pair.1 pair.2 := rfl
  rw [step, step]
  apply (first source behind).bind
  rintro ⟨value, rest⟩ whole ⟨kept, rfl⟩
  rw [← show rest.fault = source.fault from kept]
  exact second value rest behind

theorem guard {condition : Prop} [Decidable condition] {e : LoadError}
    (verdict : isVerdict e = true) {next : α → Reader β} {reader : Reader β}
    (passed : Extends reader) :
    Extends (if condition then (MonadExcept.throw e : Reader α) >>= next else reader) := by
  split
  · exact throw verdict
  · exact passed

theorem readField (size : Nat) (part : String) : Extends (readField size part) := by
  intro source next
  unfold Compiled.readField
  cases taken : source.split? size with
  | some pair =>
      have whole := Source.split?_followedBy taken next
      rw [whole]
      exact .found ⟨(Source.split?_eq_some taken).2.2, rfl⟩
  | none =>
      cases source.fault with
      | none => exact .ended (.data part) _
      | some fault =>
          cases ends : fault.endOfData with
          | true => exact .ended (by simpa [ends] using .endOfData part ends) _
          | false => exact .ended (by simpa [ends] using .fault fault) _

theorem readRun (length : Nat) (part : String) : Extends (readRun length part) := by
  intro source next
  unfold Compiled.readRun
  cases taken : source.split? length with
  | some pair =>
      have whole := Source.split?_followedBy taken next
      rw [whole]
      exact .found ⟨(Source.split?_eq_some taken).2.2, rfl⟩
  | none =>
      cases source.fault with
      | none => exact .ended (.data part) _
      | some fault => exact .ended (.fault fault) _

theorem readWord (part : String) : Extends (readWord part) :=
  bind (readField 4 part) fun _ => pure _

end Extends

theorem extends_readHeader : Extends readHeader :=
  .bind (.readField _ _) fun _ => .guard rfl (.pure _)

theorem extends_readCue? (mark : List UInt8) : Extends (readCue? mark) := by
  rw [readCue?]
  split
  · exact .bind (.readWord _) fun _ => .bind (.readRun _ _) fun _ => .pure _
  · exact .pure _

theorem extends_readVariant (label : String) : Extends (readVariant label) :=
  .bind (.readField _ _) fun _ => .guard rfl (.bind (.readWord _) fun _ =>
    .bind (.readRun _ _) fun _ => .bind (extends_readCue? _) fun _ => .pure _)

theorem extends_readVariants (label : String) (count : Nat) :
    Extends (readVariants label count) := by
  induction count with
  | zero => exact .pure _
  | succ count ih =>
      exact .bind (extends_readVariant label) fun _ => .bind ih fun _ => .pure _

theorem extends_readBlockBody : Extends readBlockBody :=
  .bind (.readWord _) fun _ => .bind (.readWord _) fun _ => .bind (.readRun _ _) fun _ =>
    .bind (extends_readVariants _ _) fun _ => .pure _

/-! ## Blocks -/

theorem readMark_followedBy {source rest : Source} {mark : List UInt8}
    (read : readMark source = .ok (some mark, rest)) (next : Source) :
    readMark (source.followedBy next) = .ok (some mark, rest.followedBy next) := by
  obtain ⟨size, rfl⟩ := readMark_eq_some_iff.mp read
  exact readMark_eq_some_iff.mpr ⟨size, Source.followedBy_prepend mark rest next⟩

theorem fault_of_readMark {source rest : Source} {mark : List UInt8}
    (read : readMark source = .ok (some mark, rest)) : rest.fault = source.fault := by
  obtain ⟨-, rfl⟩ := readMark_eq_some_iff.mp read
  rfl

theorem endsIn_of_readMark {source : Source} {e : LoadError} (failed : readMark source = .error e) :
    EndsIn source.fault e := by
  unfold readMark at failed
  split at failed
  next => cases failed
  next =>
    cases met : source.fault with
    | none =>
        rw [met] at failed
        cases failed
    | some fault =>
        rw [met] at failed
        cases failed
        exact .fault fault

theorem readBlocks_failed {source middle : Source} {e : LoadError}
    (mark : readMark source = .ok (some labelMark, middle))
    (body : readBlockBody middle = .error e) : readBlocks source = .error e := by
  rw [readBlocks]
  split <;> simp_all
  split <;> simp_all

/-- These are all the blocks, or the data ended where the mark of another one may have begun. -/
def GoesOn (fault : Option Fault) (blocks : List Block)
    (whole : Except LoadError (List Block)) : Prop :=
  whole = .ok blocks ∨
    fault = none ∧ ∃ others : Except LoadError (List Block), whole = others.map (blocks ++ ·)

theorem GoesOn.cons {fault : Option Fault} {blocks : List Block}
    {whole : Except LoadError (List Block)} (more : GoesOn fault blocks whole) (block : Block) :
    GoesOn fault (block :: blocks) (whole.map (block :: ·)) := by
  rcases more with rfl | ⟨healthy, others, rfl⟩
  · exact .inl rfl
  · refine .inr ⟨healthy, others, ?_⟩
    cases others <;> rfl

theorem readBlocks_foretells (source next : Source) :
    Foretells source.fault (GoesOn source.fault) (readBlocks source)
      (readBlocks (source.followedBy next)) := by
  fun_induction readBlocks source with
  | case1 source e failed => exact .ended (endsIn_of_readMark failed) _
  | case2 source _ read =>
      have healthy := (readMark_eq_none_iff.mp read).2.1
      refine .found (.inr ⟨healthy, readBlocks (source.followedBy next), ?_⟩)
      cases readBlocks (source.followedBy next) <;> rfl
  | case3 source rest e body mark =>
      have foretold := extends_readBlockBody rest next
      rw [body, foretells_error_iff, fault_of_readMark mark] at foretold
      rcases foretold with ⟨verdict, whole⟩ | ends
      · rw [readBlocks_failed (readMark_followedBy mark next) whole]
        exact .refused verdict
      · exact .ended ends _
  | case4 source middle block rest body e others mark ih =>
      have foretold := extends_readBlockBody middle next
      rw [body, foretells_ok_iff] at foretold
      obtain ⟨kept, whole⟩ := foretold
      rw [kept, fault_of_readMark mark, others, foretells_error_iff] at ih
      rw [readBlocks_block (readMark_followedBy mark next) whole]
      rcases ih with ⟨verdict, more⟩ | ends
      · rw [more]
        exact .refused verdict
      · exact .ended ends _
  | case5 source middle block rest body blocks others mark ih =>
      have foretold := extends_readBlockBody middle next
      rw [body, foretells_ok_iff] at foretold
      obtain ⟨kept, whole⟩ := foretold
      rw [kept, fault_of_readMark mark, others, foretells_ok_iff] at ih
      rw [readBlocks_block (readMark_followedBy mark next) whole]
      exact .found (ih.cons block)
  | case6 source mark rest read other =>
      obtain ⟨size, rfl⟩ := readMark_eq_some_iff.mp read
      refine .found (.inl (readBlocks_noBlock (.inr ⟨?_, ?_⟩)))
      · simp only [Source.followedBy_prepend, Source.pending_prepend, List.length_append]
        omega
      · rwa [Source.followedBy_prepend, Source.pending_prepend, List.take_left' size]

/-! ## Files -/

theorem load_eq_bind (source : Source) :
    load source =
      (readHeader source).bind fun pair =>
        (readBlocks pair.2).bind fun blocks =>
          .ok (.ofBlocks (blocks.map Block.entry) pair.1.effectiveLanguageId) := rfl

/--
What the front of a file gives, the whole gives as well. Only a source without a
fault may have given fewer entries than there are.
-/
theorem load_foretells (source next : Source) :
    Foretells source.fault
      (fun front whole => whole = .ok front ∨
        source.fault = none ∧ ∀ listing, whole = .ok listing → front.IsFrontOf listing)
      (load source) (load (source.followedBy next)) := by
  rw [load_eq_bind, load_eq_bind]
  apply (extends_readHeader source next).bind
  rintro ⟨header, rest⟩ whole ⟨kept, rfl⟩
  rw [← show rest.fault = source.fault from kept]
  apply (readBlocks_foretells rest next).bind
  intro blocks whole goesOn
  apply Foretells.found
  rcases goesOn with rfl | ⟨healthy, others, rfl⟩
  · exact .inl rfl
  · refine .inr ⟨healthy, ?_⟩
    intro listing loaded
    cases others with
    | error e => cases loaded
    | ok others =>
        cases loaded
        rw [List.map_append]
        exact Listing.isFrontOf_ofBlocks _ _ _

end Phrasebook.Compiled

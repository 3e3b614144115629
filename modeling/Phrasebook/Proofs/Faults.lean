import Mathlib
import Phrasebook.Compiled.Printer
import Phrasebook.Plain.Block
import Phrasebook.Proofs.Compiled.Front

/-!
# Sources that fail

A fault is never taken for the end of the data. A plain file is read to its very
end, so that its fault is always met. A compiled file may be decided by the
bytes in front of the fault, and then every file that starts with them gives the
same result; otherwise the fault is met, or it is reported as the end of the data
that the system took it for.
-/

namespace Phrasebook

namespace Plain

open Bytes Source

/--
The reader has met the fault, or the end where there is no fault; or it has found something
and leaves them to be met.
-/
def Meets (fault : Option Fault) : Except Fault (Option (α × Source)) → Prop
  | .error met => fault = some met
  | .ok none => fault = none
  | .ok (some (_, rest)) => rest.fault = fault

section Meets

variable {α : Type} {fault : Option Fault}

theorem Meets.failed {met : Fault}
    (meets : Meets fault (.error met : Except Fault (Option (α × Source)))) : fault = some met :=
  meets

theorem Meets.ended (meets : Meets fault (.ok none : Except Fault (Option (α × Source)))) :
    fault = none :=
  meets

theorem Meets.still {value : α} {rest : Source} (meets : Meets fault (.ok (some (value, rest)))) :
    rest.fault = fault :=
  meets

end Meets

theorem meets_readLine (source : Source) : Meets source.fault source.readLine := by
  unfold readLine
  cases breakLine? source.pending with
  | some pair => exact rfl
  | none =>
      cases fault : source.fault with
      | some met => exact rfl
      | none =>
          dsimp only
          split <;> exact rfl

theorem meets_readQuoted (lineRest : List UInt8) (source : Source) :
    Meets source.fault ((readQuoted lineRest source).map some) := by
  simp only [readQuoted]
  split
  · exact rfl
  · cases fault : source.fault with
    | some met => exact rfl
    | none => exact fault

theorem meets_readBodyLine (source : Source) : Meets source.fault (readBodyLine source) := by
  have met := meets_readLine source
  unfold readBodyLine
  generalize source.readLine = read at met ⊢
  rcases read with _ | _ | ⟨line, rest⟩
  · exact met
  · exact met
  · dsimp only
    rcases Text.trimEdges line with - | ⟨b, more⟩
    · exact met
    · dsimp only
      split
      · have quoted := meets_readQuoted (more ++ [newline]) rest
        rw [met.still] at quoted
        generalize readQuoted (more ++ [newline]) rest = span at quoted ⊢
        cases span with
        | error _ => exact quoted
        | ok _ => exact quoted
      · split
        · exact met
        · exact met

theorem meets_readBody (value : Option Span) (source : Source) :
    Meets source.fault (readBody value source) := by
  fun_induction readBody value source with
  | case1 value source _ read | case2 value source read | case4 value source rest read =>
      have met := read ▸ meets_readBodyLine source
      exact met
  | case3 value source span rest read ih | case5 value source rest read ih =>
      have met := read ▸ meets_readBodyLine source
      rwa [met.still] at ih

/-! ## Faulty sources -/

section Faulty

variable {source : Source} {fault : Fault}

theorem readBlocks_of_fault (faulty : source.fault = some fault) :
    readBlocks source = .error (.io fault) := by
  fun_induction readBlocks source with
  | case1 source other read =>
      have met := read ▸ meets_readLine source
      rw [Option.some.inj (met.failed.symm.trans faulty)]
  | case2 source read =>
      have met := read ▸ meets_readLine source
      cases met.ended.symm.trans faulty
  | case3 source line rest read label passed ih =>
      have met := read ▸ meets_readLine source
      exact ih (met.still.trans faulty)
  | case4 source line rest read label visible other body =>
      have first := read ▸ meets_readLine source
      have met := body ▸ meets_readBody none rest
      rw [Option.some.inj (met.failed.symm.trans (first.still.trans faulty))]
  | case5 source line rest read label visible body =>
      have first := read ▸ meets_readLine source
      have met := body ▸ meets_readBody none rest
      cases met.ended.symm.trans (first.still.trans faulty)
  | case6 source line rest read label visible value left body e others ih =>
      have first := read ▸ meets_readLine source
      have met := body ▸ meets_readBody none rest
      rw [← others]
      exact ih (met.still.trans (first.still.trans faulty))
  | case7 source line rest read label visible value left body blocks others ih =>
      have first := read ▸ meets_readLine source
      have met := body ▸ meets_readBody none rest
      rw [ih (met.still.trans (first.still.trans faulty))] at others
      cases others

theorem fault_of_readBlocks {blocks : List Block} (read : readBlocks source = .ok blocks) :
    source.fault = none := by
  cases fault : source.fault with
  | none => rfl
  | some met =>
      rw [readBlocks_of_fault fault] at read
      cases read

theorem countEndings_of_fault (faulty : source.fault = some fault) :
    countEndings source = .error fault := by
  fun_induction countEndings source with
  | case1 source other read =>
      have met := read ▸ meets_readBodyLine source
      rw [Option.some.inj (met.failed.symm.trans faulty)]
  | case2 source read =>
      have met := read ▸ meets_readBodyLine source
      cases met.ended.symm.trans faulty
  | case3 source line rest read other others ih =>
      have met := read ▸ meets_readBodyLine source
      rw [← others]
      exact ih (met.still.trans faulty)
  | case4 source line rest read n others ih =>
      have met := read ▸ meets_readBodyLine source
      rw [ih (met.still.trans faulty)] at others
      cases others

theorem exists_countEndings (healthy : source.fault = none) :
    ∃ n, countEndings source = .ok n := by
  fun_induction countEndings source with
  | case1 source other read =>
      have met := read ▸ meets_readBodyLine source
      cases healthy.symm.trans met.failed
  | case2 => exact ⟨0, rfl⟩
  | case3 source line rest read other others ih =>
      have met := read ▸ meets_readBodyLine source
      obtain ⟨n, counted⟩ := ih (met.still.trans healthy)
      cases others.symm.trans counted
  | case4 source line rest read n others ih => exact ⟨_, rfl⟩

/-- Counting fails by a fault alone, which loading meets as well. -/
theorem load_of_count_eq_error {e : LoadError} (failed : count source = .error e) :
    load source = .error e := by
  unfold count at failed
  cases fault : source.fault with
  | none =>
      obtain ⟨n, counted⟩ := exists_countEndings fault
      rw [counted] at failed
      cases failed
  | some met =>
      rw [countEndings_of_fault fault] at failed
      cases failed
      rw [load, readBlocks_of_fault fault]
      rfl

end Faulty

end Plain

open Bytes

/-- A result that the bytes read so far decide, whatever stands behind them. -/
def Compiled.isDecided : Except LoadError Listing → Bool
  | .ok _ => true
  | .error e => isVerdict e

theorem Compiled.load_of_fault {source : Source} {fault : Fault}
    (faulty : source.fault = some fault) :
    if isDecided (load source) then ∀ next, load (source.followedBy next) = load source
    else load source = .error (.io fault) ∨
      fault.endOfData = true ∧ ∃ part, load source = .error (.truncated part) := by
  have foretold (next : Source) := load_foretells source next
  rw [faulty] at foretold
  cases found : load source with
  | ok listing =>
      intro next
      rcases foretells_ok_iff.mp (found ▸ foretold next) with whole | ⟨healthy, -⟩
      · exact whole
      · cases healthy
  | error e =>
      split
      next verdict =>
        intro next
        rcases foretells_error_iff.mp (found ▸ foretold next) with ⟨-, whole⟩ | ends
        · exact whole
        · cases ends <;> cases verdict
      next undecided =>
        rcases foretells_error_iff.mp (found ▸ foretold source) with ⟨verdict, -⟩ | ends
        · exact (undecided verdict).elim
        · cases ends with
          | fault => exact .inl rfl
          | endOfData part ends => exact .inr ⟨ends, part, rfl⟩

end Phrasebook

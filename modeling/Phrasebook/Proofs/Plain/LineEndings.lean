import Phrasebook.Proofs.Plain.Grammar

/-!
# Line endings of a plain file

A carriage return in front of each newline makes no difference. At the end of a
line it is trimmed. Within quoted text it is a space in front of the space that
the newline is read as; there it also takes the place of the newline behind a
backslash, which then stands for a space all the same. Behind a cue it ends the
cue, as the newline would have done.

`Agree` relates what a reader finds with and without the returns, and what it
leaves to the next reader. It is shown for each reader in turn.
-/

namespace Phrasebook.Bytes

def carriageReturn : UInt8 := 0x0D

/-- The bytes with a carriage return in front of each newline. -/
def insertReturns (bytes : List UInt8) : List UInt8 :=
  bytes.flatMap fun b => if b = newline then [carriageReturn, newline] else [b]

theorem insertReturns_newline (rest : List UInt8) :
    insertReturns (newline :: rest) = carriageReturn :: newline :: insertReturns rest := rfl

theorem insertReturns_cons {b : UInt8} (other : b ≠ newline) (rest : List UInt8) :
    insertReturns (b :: rest) = b :: insertReturns rest := by
  simp [insertReturns, other]

theorem insertReturns_append (front rest : List UInt8) :
    insertReturns (front ++ rest) = insertReturns front ++ insertReturns rest :=
  List.flatMap_append

theorem insertReturns_eq_self {line : List UInt8} (within : newline ∉ line) :
    insertReturns line = line := by
  induction line with
  | nil => rfl
  | cons b rest ih =>
      simp only [List.mem_cons, not_or] at within
      rw [insertReturns_cons (Ne.symm within.1), ih within.2]

namespace Source

def withReturns (source : Source) : Source :=
  { source with pending := insertReturns source.pending }

end Source

end Phrasebook.Bytes

namespace Phrasebook.Plain

open Bytes Source

/-! ## Readers that agree -/

/--
The second result is the first one for a file with carriage returns: the same
fault, the same end, or a related value with the same rest to read.
-/
inductive Agree {α : Type} (related : α → α → Prop) :
    Except Fault (Option (α × Source)) → Except Fault (Option (α × Source)) → Prop
  | failed (fault : Fault) : Agree related (.error fault) (.error fault)
  | ended : Agree related (.ok none) (.ok none)
  | found {value other : α} (same : related value other) (rest : Source) :
      Agree related (.ok (some (value, rest))) (.ok (some (other, rest.withReturns)))

section Agree

variable {α : Type} {related : α → α → Prop} {result : Except Fault (Option (α × Source))}

theorem agree_failed_iff {fault : Fault} :
    Agree related (.error fault) result ↔ result = .error fault := by
  constructor
  · rintro ⟨⟩
    rfl
  · rintro rfl
    exact .failed fault

theorem agree_ended_iff : Agree related (.ok none) result ↔ result = .ok none := by
  constructor
  · rintro ⟨⟩
    rfl
  · rintro rfl
    exact .ended

theorem agree_found_iff {value : α} {rest : Source} :
    Agree related (.ok (some (value, rest))) result ↔
      ∃ other, related value other ∧ result = .ok (some (other, rest.withReturns)) := by
  constructor
  · rintro ⟨⟩
    next other same => exact ⟨other, same, rfl⟩
  · rintro ⟨other, same, rfl⟩
    exact .found same rest

end Agree

theorem agree_readLine (source : Source) :
    Agree (fun line other => Text.trimEdges other = Text.trimEdges line) source.readLine
      source.withReturns.readLine := by
  rcases source with ⟨bytes, fault⟩
  by_cases ended : newline ∈ bytes
  · rcases List.eq_append_cons_of_mem ended with ⟨line, rest, rfl, within⟩
    have returned : newline ∉ line ++ [carriageReturn] := by
      simp only [List.mem_append, List.mem_singleton, not_or]
      exact ⟨within, by decide⟩
    have whole : insertReturns (line ++ newline :: rest) =
        line ++ [carriageReturn] ++ newline :: insertReturns rest := by
      rw [insertReturns_append, insertReturns_eq_self within, insertReturns_newline,
        List.append_assoc]
      rfl
    simp only [readLine, withReturns, whole, breakLine?_append returned, breakLine?_append within]
    refine .found ?_ { pending := rest, fault }
    exact Text.trimEdges_concat_blank line rfl
  · simp only [readLine, withReturns, insertReturns_eq_self ended, breakLine?_eq_none ended]
    cases fault with
    | some fault => exact .failed fault
    | none =>
        by_cases empty : bytes = []
        · rw [if_pos empty]
          exact .ended
        · rw [if_neg empty]
          refine .found ?_ { pending := [] }
          rfl

/-! ## Quoted text -/

namespace Scan

theorem Alike.trans {a b c : Scan} (first : Alike a b) (second : Alike b c) : Alike a c where
  phase := first.phase.trans second.phase
  cue := first.cue.trans second.cue
  closed := first.closed.trans second.closed
  text := fun more => (first.text more).trans (second.text more)

theorem alike_step_return {scan : Scan} (running : scan.phase ≠ .done) :
    Alike (scan.step newline) ((scan.step carriageReturn).step newline) := by
  rcases scan with ⟨phase, text, cue, closed⟩
  cases on : phase.onClosingLine with
  | true =>
      have noCue : cueFrom phase [carriageReturn] = [] :=
        cueFrom_blanks phase (List.forall_mem_singleton.mpr rfl)
      rcases step_closingLine on (b := carriageReturn) (by decide) (by decide) with
        ⟨next, taken, still, stepped, split⟩
      rw [split] at noCue
      rw [stepped, step_closingLine_stop still (.inl rfl), step_closingLine_stop on (.inl rfl),
        (List.append_eq_nil_iff.mp noCue).1]
      exact ⟨rfl, by simp, rfl, fun _ => rfl⟩
  | false =>
      cases phase with
      | beforeCue _ | inCue | afterCue => cases on
      | done => exact (running rfl).elim
      | inText escaped =>
          have seen : isSpace newline = true ∧ isSpace carriageReturn = true := ⟨rfl, rfl⟩
          rw [step_blank escaped seen.1, step_blank escaped seen.2, step_blank false seen.1]
          refine ⟨rfl, rfl, rfl, ?_⟩
          intro more
          simpa using (Text.display_append_two_spaces text.toList more).symm

theorem feed_insertReturns {a b : Scan} (alike : Alike a b) (bytes : List UInt8) :
    Alike (a.feed bytes).1 (b.feed (insertReturns bytes)).1 ∧
      (b.feed (insertReturns bytes)).2 = insertReturns (a.feed bytes).2 := by
  induction bytes generalizing a b with
  | nil => exact ⟨alike, rfl⟩
  | cons byte rest ih =>
      by_cases stopped : a.phase = .done
      · rw [feed_done stopped, feed_done (alike.phase ▸ stopped)]
        exact ⟨alike, rfl⟩
      · have running : b.phase ≠ .done := alike.phase ▸ stopped
        by_cases ends : byte = newline
        · have still := step_running running (b := carriageReturn) (by decide) (by decide)
          rw [ends, insertReturns_newline, feed_cons stopped, feed_cons running, feed_cons still]
          exact ih ((alike.step newline).trans (alike_step_return running))
        · rw [insertReturns_cons ends, feed_cons stopped, feed_cons running]
          exact ih (alike.step byte)

theorem Alike.shown {a b : Scan} (alike : Alike a b) : b.finish.shown = a.finish.shown := by
  rcases alike.finish with ⟨text, cue⟩
  rw [Span.shown, Span.shown, text, cue]

end Scan

theorem agree_readQuoted (lineRest : List UInt8) (source : Source) :
    (∃ fault, readQuoted lineRest source = .error fault ∧
        readQuoted lineRest source.withReturns = .error fault) ∨
      ∃ span other : Span, ∃ rest : Source, other.shown = span.shown ∧
        readQuoted lineRest source = .ok (span, rest) ∧
        readQuoted lineRest source.withReturns = .ok (other, rest.withReturns) := by
  generalize start : (Scan.feed {} lineRest).1 = scan
  have fed : (scan.feed source.pending).1.Alike (scan.feed source.withReturns.pending).1 ∧
      (scan.feed source.withReturns.pending).2 = insertReturns (scan.feed source.pending).2 :=
    Scan.feed_insertReturns (.refl scan) source.pending
  rcases fed with ⟨alike, left⟩
  simp only [readQuoted, start]
  by_cases stopped : (scan.feed source.pending).1.phase = .done
  · rw [if_pos stopped, if_pos (alike.phase ▸ stopped), left]
    exact .inr ⟨_, _, _, alike.shown, rfl, rfl⟩
  · rw [if_neg stopped, if_neg (alike.phase ▸ stopped)]
    have fault : source.withReturns.fault = source.fault := rfl
    rw [fault]
    cases source.fault with
    | some fault => exact .inl ⟨fault, rfl, rfl⟩
    | none => exact .inr ⟨_, _, source.exhausted, alike.shown, rfl, rfl⟩

/-! ## Blocks -/

/-- Lines of a block that do the same for it. -/
inductive BodyLine.Alike : BodyLine → BodyLine → Prop
  | quoted {span other : Span} (shown : other.shown = span.shown) :
      Alike (.quoted span) (.quoted other)
  | ending : Alike .ending .ending
  | other : Alike .other .other

theorem agree_readBodyLine (source : Source) :
    Agree BodyLine.Alike (readBodyLine source) (readBodyLine source.withReturns) := by
  have agree := agree_readLine source
  simp only [readBodyLine]
  generalize source.readLine = read, source.withReturns.readLine = again at agree ⊢
  cases agree with
  | failed fault => exact .failed fault
  | ended => exact .ended
  | found trimmed rest =>
      dsimp only
      rw [trimmed]
      rcases Text.trimEdges _ with - | ⟨b, more⟩
      · exact .found .other rest
      · dsimp only
        by_cases quoted : b = quote
        · rw [if_pos quoted, if_pos quoted]
          rcases agree_readQuoted (more ++ [newline]) rest with
            ⟨fault, read, again⟩ | ⟨span, other, left, shown, read, again⟩
          · rw [read, again]
            exact .failed fault
          · rw [read, again]
            exact .found (.quoted shown) left
        · rw [if_neg quoted, if_neg quoted]
          split
          · exact .found .ending rest
          · exact .found .other rest

theorem readBody_failed {source : Source} {fault : Fault}
    (read : readBodyLine source = .error fault) (value : Option Span) :
    readBody value source = .error fault := by
  rw [readBody]
  split <;> simp_all

theorem readBody_unended {source : Source} (read : readBodyLine source = .ok none)
    (value : Option Span) : readBody value source = .ok none := by
  rw [readBody]
  split <;> simp_all

theorem agree_readBody {value other : Option Span}
    (same : other.map Span.shown = value.map Span.shown) (source : Source) :
    Agree (fun value other => other.map Span.shown = value.map Span.shown) (readBody value source)
      (readBody other source.withReturns) := by
  fun_induction readBody value source generalizing other with
  | case1 value source fault failed =>
      have line := agree_readBodyLine source
      rw [failed, agree_failed_iff] at line
      rw [readBody_failed line]
      exact .failed fault
  | case2 value source unended =>
      have line := agree_readBodyLine source
      rw [unended, agree_ended_iff] at line
      rw [readBody_unended line]
      exact .ended
  | case3 value source span middle read ih =>
      have line := agree_readBodyLine source
      rw [read, agree_found_iff] at line
      rcases line with ⟨-, shown | - | -, again⟩
      rw [readBody_quoted again]
      apply ih
      cases value <;> cases other <;> simp_all
  | case4 value source middle read =>
      have line := agree_readBodyLine source
      rw [read, agree_found_iff] at line
      rcases line with ⟨-, - | - | -, again⟩
      rw [readBody_ending again]
      refine .found ?_ middle
      exact same
  | case5 value source middle read ih =>
      have line := agree_readBodyLine source
      rw [read, agree_found_iff] at line
      rcases line with ⟨-, - | - | -, again⟩
      rw [readBody_other again]
      exact ih same

/-! ## Files -/

theorem readBlocks_failed {source : Source} {fault : Fault}
    (read : source.readLine = .error fault) : readBlocks source = .error (.io fault) := by
  rw [readBlocks]
  split <;> simp_all

theorem readBlocks_ended {source : Source} (read : source.readLine = .ok none) :
    readBlocks source = .ok [] := by
  rw [readBlocks]
  split <;> simp_all

theorem map_entry_cons (block : Block) (others : Except LoadError (List Block)) :
    (others.map (block :: ·)).map (List.map Block.entry) =
      (others.map (List.map Block.entry)).map (block.entry :: ·) := by
  cases others <;> rfl

theorem map_entry_readBlocks_withReturns (source : Source) :
    (readBlocks source.withReturns).map (List.map Block.entry) =
      (readBlocks source).map (List.map Block.entry) := by
  induction size : source.pending.length using Nat.strong_induction_on generalizing source with
  | _ size ih =>
      subst size
      have agree := agree_readLine source
      rcases first : source.readLine with fault | - | ⟨line, rest⟩
      · rw [first, agree_failed_iff] at agree
        rw [readBlocks_failed first, readBlocks_failed agree]
      · rw [first, agree_ended_iff] at agree
        rw [readBlocks_ended first, readBlocks_ended agree]
      · rw [first, agree_found_iff] at agree
        rcases agree with ⟨other, trimmed, again⟩
        have shorter := readLine_lt first
        by_cases skip : Text.trimEdges line = [] ∨ isComment (Text.trimEdges line) = true
        · rw [readBlocks_passed first skip, readBlocks_passed again (trimmed.symm ▸ skip)]
          exact ih _ shorter rest rfl
        · simp only [not_or, Bool.not_eq_true] at skip
          rw [readBlocks_label first skip.1 skip.2,
            readBlocks_label again (trimmed.symm ▸ skip.1) (trimmed.symm ▸ skip.2), trimmed]
          have body := @agree_readBody none none rfl rest
          rcases whole : readBody none rest with fault | - | ⟨value, left⟩
          · rw [whole, agree_failed_iff] at body
            rw [body]
          · rw [whole, agree_ended_iff] at body
            rw [body]
          · rw [whole, agree_found_iff] at body
            rcases body with ⟨found, shown, body⟩
            have others := ih _ (Nat.lt_of_le_of_lt (readBody_le whole) shorter) left rfl
            rw [body]
            dsimp only
            rw [map_entry_cons, map_entry_cons, others, Block.entry_eq_entryShowing,
              Block.entry_eq_entryShowing, shown]

theorem countEndings_eq (source : Source) :
    countEndings source =
      match readBodyLine source with
      | .error fault => .error fault
      | .ok none => .ok 0
      | .ok (some (line, rest)) =>
          (countEndings rest).map fun n => if line = .ending then n + 1 else n := by
  rw [countEndings]
  split
  next failed => rw [failed]
  next ended => rw [ended]
  next found =>
    rw [found]
    dsimp only
    cases countEndings _ <;> rfl

theorem BodyLine.Alike.eq_ending_iff {line second : BodyLine}
    (alike : BodyLine.Alike line second) : second = .ending ↔ line = .ending := by
  cases alike <;> simp

theorem countEndings_withReturns (source : Source) :
    countEndings source.withReturns = countEndings source := by
  induction size : source.pending.length using Nat.strong_induction_on generalizing source with
  | _ size ih =>
      subst size
      have agree := agree_readBodyLine source
      rw [countEndings_eq source, countEndings_eq source.withReturns]
      rcases read : readBodyLine source with fault | - | ⟨line, rest⟩
      · rw [read, agree_failed_iff] at agree
        rw [agree]
      · rw [read, agree_ended_iff] at agree
        rw [agree]
      · rw [read, agree_found_iff] at agree
        rcases agree with ⟨second, alike, again⟩
        rw [again]
        dsimp only
        rw [ih _ (readBodyLine_lt read) rest rfl]
        simp only [alike.eq_ending_iff]

/--
Carriage returns in front of the newlines of a file make no difference to what
is loaded from it or to the count, however the file ends.
-/
theorem load_insertReturns (data : List UInt8) (fault : Option Fault) :
    load { pending := insertReturns data, fault } = load { pending := data, fault } ∧
      count { pending := insertReturns data, fault } = count { pending := data, fault } := by
  have returned : { pending := insertReturns data, fault } =
      withReturns { pending := data, fault } := rfl
  rw [returned]
  refine ⟨?_, ?_⟩
  · rw [load_eq_map, load_eq_map, map_entry_readBlocks_withReturns]
  · rw [count, count, countEndings_withReturns]

end Phrasebook.Plain

import Mathlib.Data.List.Induction
import Mathlib.Data.List.TakeWhile
import Phrasebook.Plain.Quoted
import Phrasebook.Proofs.Text.Blanks

/-!
# Where quoted text ends

The scanner, one byte at a time, finds the first double quote that stands behind
an even number of backslashes. From the rest of the line it takes the run of cue
bytes behind white space and at most one equals sign.

The invariant of a scan in text is that it has gathered the bytes so far and
that its flag is the parity of the backslashes at their end (`feed_text`).
-/

namespace Phrasebook.Plain

open Bytes

/-! ## Escaped quotes -/

/-- How many backslashes the bytes end in. -/
def backslashRun (bytes : List UInt8) : Nat := (bytes.reverse.takeWhile (· == backslash)).length

/-- Each double quote stands directly behind an odd number of backslashes. -/
def QuotesEscaped (bytes : List UInt8) : Prop :=
  ∀ front rest, bytes = front ++ quote :: rest → backslashRun front % 2 = 1

/-- The bytes can stand in front of a closing quote. -/
def Quotable (bytes : List UInt8) : Prop :=
  QuotesEscaped bytes ∧ backslashRun bytes % 2 = 0

theorem backslashRun_concat (bytes : List UInt8) (b : UInt8) :
    backslashRun (bytes ++ [b]) = if b = backslash then backslashRun bytes + 1 else 0 := by
  unfold backslashRun
  rw [List.reverse_append, List.reverse_singleton, List.singleton_append]
  by_cases same : b = backslash <;> simp [same]

theorem quotesEscaped_of_not_mem {bytes : List UInt8} (unquoted : quote ∉ bytes) :
    QuotesEscaped bytes := by
  rintro front rest rfl
  exact absurd (List.mem_append_right front List.mem_cons_self) unquoted

theorem quotesEscaped_nil : QuotesEscaped [] := quotesEscaped_of_not_mem List.not_mem_nil

theorem quotesEscaped_concat {bytes : List UInt8} {b : UInt8} :
    QuotesEscaped (bytes ++ [b]) ↔
      QuotesEscaped bytes ∧ (b = quote → backslashRun bytes % 2 = 1) := by
  constructor
  · intro escaped
    refine ⟨?_, ?_⟩
    · intro front rest whole
      exact escaped front (rest ++ [b]) (by simp [whole])
    · intro same
      exact escaped bytes [] (by rw [same])
  · intro h front rest whole
    rcases h with ⟨escaped, last⟩
    cases rest using List.reverseRecOn with
    | nil =>
        rcases List.append_inj' whole rfl with ⟨same, closes⟩
        cases closes
        exact same ▸ last rfl
    | append_singleton rest c =>
        rw [← List.cons_append, ← List.append_assoc] at whole
        exact escaped front rest (List.append_inj' whole rfl).1

theorem quotesEscaped_iff_forall_fin {bytes : List UInt8} :
    QuotesEscaped bytes ↔
      ∀ i : Fin bytes.length, bytes[i] = quote → backslashRun (bytes.take i) % 2 = 1 := by
  constructor
  · intro escaped i here
    apply escaped (bytes.take i) (bytes.drop (i + 1))
    rw [← here]
    exact (List.take_append_drop i.val bytes).symm.trans
      (congrArg (_ ++ ·) (List.drop_eq_getElem_cons i.isLt))
  · intro each front rest whole
    subst whole
    have inside : front.length < (front ++ quote :: rest).length := by simp
    have here := each ⟨front.length, inside⟩ (by simp)
    simpa using here

instance (bytes : List UInt8) : Decidable (QuotesEscaped bytes) :=
  decidable_of_iff _ quotesEscaped_iff_forall_fin.symm

instance (bytes : List UInt8) : Decidable (Quotable bytes) :=
  inferInstanceAs (Decidable (_ ∧ _))

theorem quotesEscaped_or_quotable (bytes : List UInt8) :
    QuotesEscaped bytes ∨ ∃ text rest, bytes = text ++ quote :: rest ∧ Quotable text := by
  induction bytes using List.reverseRecOn with
  | nil => exact .inl quotesEscaped_nil
  | append_singleton bytes b ih =>
      rcases ih with escaped | ⟨text, rest, whole, quotable⟩
      · by_cases closes : b = quote ∧ backslashRun bytes % 2 = 0
        · exact .inr ⟨bytes, [], by rw [closes.1], escaped, closes.2⟩
        · refine .inl (quotesEscaped_concat.mpr ⟨escaped, ?_⟩)
          intro same
          have odd : ¬backslashRun bytes % 2 = 0 := fun even => closes ⟨same, even⟩
          omega
      · exact .inr ⟨text, rest ++ [b], by simp [whole], quotable⟩

/-! ## Scans -/

namespace Scan

theorem plainSpace_eq_iff {b visible : UInt8} (plain : isSpace visible = false) :
    plainSpace b = visible ↔ b = visible := by
  unfold plainSpace
  split
  next blank =>
    constructor
    · rintro rfl
      cases plain
    · rintro rfl
      rw [plain] at blank
      cases blank
  next => exact Iff.rfl

@[simp] theorem feed_nil (scan : Scan) : scan.feed [] = (scan, []) := rfl

theorem feed_cons {scan : Scan} (running : scan.phase ≠ .done) (b : UInt8) (rest : List UInt8) :
    scan.feed (b :: rest) = (scan.step b).feed rest := by
  rw [feed, if_neg running]

theorem feed_done {scan : Scan} (stopped : scan.phase = .done) (bytes : List UInt8) :
    scan.feed bytes = (scan, bytes) := by
  cases bytes with
  | nil => rfl
  | cons b rest => rw [feed, if_pos stopped]

theorem feed_append {scan after : Scan} {front : List UInt8} (fed : scan.feed front = (after, []))
    (rest : List UInt8) : scan.feed (front ++ rest) = after.feed rest := by
  induction front generalizing scan with
  | nil =>
      cases fed
      rfl
  | cons b front ih =>
      by_cases stopped : scan.phase = .done
      · rw [feed_done stopped] at fed
        cases fed
      · rw [feed_cons stopped] at fed
        rw [List.cons_append, feed_cons stopped, ih fed]

theorem feed_append_of_done {scan : Scan} {front : List UInt8}
    (stopped : (scan.feed front).1.phase = .done) (rest : List UInt8) :
    scan.feed (front ++ rest) = ((scan.feed front).1, (scan.feed front).2 ++ rest) := by
  induction front generalizing scan with
  | nil => exact feed_done stopped rest
  | cons b front ih =>
      by_cases already : scan.phase = .done
      · rw [feed_done already, feed_done already]
      · rw [feed_cons already] at stopped
        rw [List.cons_append, feed_cons already, feed_cons already, ih stopped]

theorem feed_fst_append (scan : Scan) (front rest : List UInt8) :
    (scan.feed (front ++ rest)).1 = ((scan.feed front).1.feed rest).1 := by
  induction front generalizing scan with
  | nil => rfl
  | cons b front ih =>
      by_cases stopped : scan.phase = .done
      · rw [feed_done stopped, feed_done stopped, feed_done stopped]
      · rw [List.cons_append, feed_cons stopped, feed_cons stopped, ih]

theorem feed_snd_suffix (scan : Scan) (bytes : List UInt8) : (scan.feed bytes).2 <:+ bytes := by
  induction bytes generalizing scan with
  | nil => exact List.suffix_rfl
  | cons b rest ih =>
      rw [feed]
      split
      · exact List.suffix_rfl
      · exact (ih _).trans (List.suffix_cons b rest)

/-- A scan in text has gathered the bytes so far, and knows the parity of their last backslashes. -/
theorem feed_text {bytes : List UInt8} (escaped : QuotesEscaped bytes) (clean : sentinel ∉ bytes) :
    feed {} bytes =
      ({ phase := .inText (backslashRun bytes % 2 = 1)
         text := (bytes.map plainSpace).toArray }, []) := by
  induction bytes using List.reverseRecOn with
  | nil => rfl
  | append_singleton bytes b ih =>
      rcases quotesEscaped_concat.mp escaped with ⟨before, last⟩
      simp only [List.mem_append, List.mem_singleton, not_or] at clean
      rw [feed_append (ih before clean.1), feed_cons (by simp), feed_nil]
      simp only [step, stepText, if_neg (Ne.symm clean.2)]
      by_cases slash : b = backslash
      · have kept : plainSpace backslash = backslash := rfl
        have parity : (!decide (backslashRun bytes % 2 = 1)) =
            decide ((backslashRun bytes + 1) % 2 = 1) := by
          rw [← decide_not, decide_eq_decide]
          omega
        simp [slash, backslashRun_concat, kept, parity]
      · have inside : (decide (b = quote) && !decide (backslashRun bytes % 2 = 1)) = false := by
          by_cases same : b = quote
          · simp [last same]
          · simp [same]
        simp [slash, backslashRun_concat, inside]

end Scan

/-! ## The rest of the closing line -/

/--
The cue that the rest of a closing line names: the run of cue bytes behind white
space and at most one equals sign.
-/
def cueRun (rest : List UInt8) : List UInt8 :=
  let start := rest.dropWhile isSpace
  let start := if start.head? = some equals then start.tail.dropWhile isSpace else start
  start.takeWhile isCueByte

def Phase.onClosingLine : Phase → Bool
  | .beforeCue _ | .inCue | .afterCue => true
  | .inText _ | .done => false

/-- What a scan in the phase takes for the cue from the rest of its line. -/
def cueFrom : Phase → List UInt8 → List UInt8
  | .beforeCue false, rest => cueRun rest
  | .beforeCue true, rest => (rest.dropWhile isSpace).takeWhile isCueByte
  | .inCue, rest => rest.takeWhile isCueByte
  | _, _ => []

namespace Scan

theorem step_closingLine {phase : Phase} (on : phase.onClosingLine = true) {b : UInt8}
    (within : b ≠ newline) (clean : b ≠ sentinel) :
    ∃ next taken, next.onClosingLine = true ∧
      (∀ text cue closed, step b { phase, text, cue, closed } =
        { phase := next, text, cue := cue ++ (taken : List UInt8).toArray, closed }) ∧
      ∀ rest, cueFrom phase (b :: rest) = taken ++ cueFrom next rest := by
  have going : (decide (b = newline) || decide (b = sentinel)) = false := by simp [within, clean]
  cases phase with
  | inText escaped => cases on
  | done => cases on
  | afterCue => exact ⟨.afterCue, [], rfl, fun _ _ _ => by simp [step, going], fun rest => rfl⟩
  | inCue =>
      by_cases more : isCueByte b = true
      · refine ⟨.inCue, [b], rfl, ?_, ?_⟩
        · intro text cue closed
          simp [step, going, stepCue, more]
        · intro rest
          simp [cueFrom, more]
      · refine ⟨.afterCue, [], rfl, ?_, ?_⟩
        · intro text cue closed
          simp [step, going, stepCue, more]
        · intro rest
          simp [cueFrom, more]
  | beforeCue passed =>
      by_cases blank : isSpace b = true
      · refine ⟨.beforeCue passed, [], rfl, ?_, ?_⟩
        · intro text cue closed
          simp [step, going, blank]
        · intro rest
          cases passed <;> simp [cueFrom, cueRun, blank]
      · by_cases sign : b = equals
        · subst sign
          have seen : isSpace equals = false := rfl
          have stop : isCueByte equals = false := rfl
          cases passed with
          | false =>
              refine ⟨.beforeCue true, [], rfl, ?_, ?_⟩
              · intro text cue closed
                simp [step, within, clean, seen]
              · intro rest
                simp [cueFrom, cueRun, seen]
          | true =>
              refine ⟨.afterCue, [], rfl, ?_, ?_⟩
              · intro text cue closed
                simp [step, within, clean, seen, stepCue, stop]
              · intro rest
                simp [cueFrom, seen, stop]
        · by_cases more : isCueByte b = true
          · refine ⟨.inCue, [b], rfl, ?_, ?_⟩
            · intro text cue closed
              simp [step, going, blank, sign, stepCue, more]
            · intro rest
              cases passed <;> simp [cueFrom, cueRun, blank, sign, more]
          · refine ⟨.afterCue, [], rfl, ?_, ?_⟩
            · intro text cue closed
              simp [step, going, blank, sign, stepCue, more]
            · intro rest
              cases passed <;> simp [cueFrom, cueRun, blank, sign, more]

theorem running_of_onClosingLine {phase : Phase} (on : phase.onClosingLine = true) :
    phase ≠ .done := by
  intro stopped
  rw [stopped] at on
  cases on

theorem feed_closingLine (scan : Scan) (on : scan.phase.onClosingLine = true) {rest : List UInt8}
    (within : newline ∉ rest) (clean : sentinel ∉ rest) :
    ∃ phase, phase.onClosingLine = true ∧
      scan.feed rest =
        ({ scan with phase, cue := scan.cue ++ (cueFrom scan.phase rest).toArray }, []) := by
  induction rest generalizing scan with
  | nil =>
      refine ⟨scan.phase, on, ?_⟩
      have nothing : cueFrom scan.phase [] = [] := by
        cases scan.phase with
        | beforeCue passed => cases passed <;> rfl
        | _ => rfl
      simp [nothing]
  | cons b rest ih =>
      simp only [List.mem_cons, not_or] at within clean
      obtain ⟨next, taken, still, stepped, split⟩ :=
        step_closingLine on (Ne.symm within.1) (Ne.symm clean.1)
      have stepped := stepped scan.text scan.cue scan.closed
      have again : (scan.step b).phase.onClosingLine = true := by rw [stepped]; exact still
      rcases ih (scan.step b) again within.2 clean.2 with ⟨last, lastOn, fed⟩
      refine ⟨last, lastOn, ?_⟩
      rw [feed_cons (running_of_onClosingLine on), fed, stepped, split]
      simp

theorem step_closingLine_stop {phase : Phase} (on : phase.onClosingLine = true) {stop : UInt8}
    (stops : stop = newline ∨ stop = sentinel) (text cue : Array UInt8) (closed : Bool) :
    step stop { phase, text, cue, closed } = { phase := .done, text, cue, closed } := by
  have ends : (decide (stop = newline) || decide (stop = sentinel)) = true := by simpa using stops
  cases phase with
  | inText escaped => cases on
  | done => cases on
  | beforeCue _ | inCue | afterCue => simp [step, ends]

theorem feed_closingLine_stop {scan : Scan} (on : scan.phase.onClosingLine = true) {stop : UInt8}
    (stops : stop = newline ∨ stop = sentinel) (rest : List UInt8) :
    scan.feed (stop :: rest) = ({ scan with phase := .done }, rest) := by
  rw [feed_cons (running_of_onClosingLine on), step_closingLine_stop on stops, feed_done rfl]

/-! ## Whole scans -/

theorem feed_quote {text : List UInt8} (quotable : Quotable text) (clean : sentinel ∉ text)
    (rest : List UInt8) :
    feed {} (text ++ quote :: rest) =
      ({ phase := .beforeCue false, text := (text.map plainSpace).toArray,
         closed := true } : Scan).feed rest := by
  rcases quotable with ⟨escaped, even⟩
  have unescaped : decide (backslashRun text % 2 = 1) = false := by simp [even]
  rw [feed_append (feed_text escaped clean), unescaped, feed_cons (by simp)]
  rfl

theorem feed_closed {text line : List UInt8} (quotable : Quotable text) (clean : sentinel ∉ text)
    (within : newline ∉ line) (cleanLine : sentinel ∉ line) {stop : UInt8}
    (stops : stop = newline ∨ stop = sentinel) (rest : List UInt8) :
    feed {} (text ++ quote :: line ++ stop :: rest) =
      ({ phase := .done, text := (text.map plainSpace).toArray, cue := (cueRun line).toArray,
         closed := true }, rest) := by
  rw [List.append_assoc, List.cons_append, feed_quote quotable clean]
  obtain ⟨phase, on, fed⟩ := feed_closingLine
    { phase := .beforeCue false, text := (text.map plainSpace).toArray, closed := true }
    rfl within cleanLine
  rw [feed_append fed, feed_closingLine_stop on stops]
  simp [cueFrom]

theorem feed_unended {text line : List UInt8} (quotable : Quotable text) (clean : sentinel ∉ text)
    (within : newline ∉ line) (cleanLine : sentinel ∉ line) :
    (feed {} (text ++ quote :: line)).2 = [] := by
  obtain ⟨phase, -, fed⟩ := feed_closingLine
    { phase := .beforeCue false, text := (text.map plainSpace).toArray, closed := true }
    rfl within cleanLine
  rw [feed_quote quotable clean, fed]

theorem feed_cut {text : List UInt8} (escaped : QuotesEscaped text) (clean : sentinel ∉ text)
    (rest : List UInt8) :
    feed {} (text ++ sentinel :: rest) =
      ({ phase := .done, text := (text.map plainSpace).toArray }, rest) := by
  rw [feed_append (feed_text escaped clean), feed_cons (by simp)]
  simp [step, stepText, feed_done]

theorem closed_or_feed_eq_nil {bytes : List UInt8} (clean : sentinel ∉ bytes) :
    (∃ text line rest, bytes = text ++ quote :: line ++ newline :: rest ∧ Quotable text ∧
      newline ∉ line) ∨ (feed {} bytes).2 = [] := by
  rcases quotesEscaped_or_quotable bytes with escaped | ⟨text, more, rfl, quotable⟩
  · exact .inr (by rw [feed_text escaped clean])
  · by_cases ended : newline ∈ more
    · rcases List.eq_append_cons_of_mem ended with ⟨line, rest, rfl, within⟩
      exact .inl ⟨text, line, rest, by simp, quotable, within⟩
    · simp only [List.mem_append, List.mem_cons, not_or] at clean
      exact .inr (feed_unended quotable clean.1 ended clean.2.2)

/-! ## Scans that show the same -/

/-- What a scan does with a byte depends on its phase alone. -/
theorem step_eq (phase : Phase) (b : UInt8) :
    ∃ next taken named closes, ∀ text cue closed, step b { phase, text, cue, closed } =
      { phase := next, text := text ++ (taken : List UInt8).toArray,
        cue := cue ++ (named : List UInt8).toArray, closed := closed || closes } := by
  cases on : phase.onClosingLine with
  | true =>
      by_cases stops : b = newline ∨ b = sentinel
      · refine ⟨.done, [], [], false, ?_⟩
        intro text cue closed
        rw [step_closingLine_stop on stops]
        simp
      · rcases not_or.mp stops with ⟨within, clean⟩
        rcases step_closingLine on within clean with ⟨next, named, -, stepped, -⟩
        exact ⟨next, [], named, false, fun text cue closed => by simp [stepped]⟩
  | false =>
      cases phase with
      | beforeCue _ | inCue | afterCue => cases on
      | done => exact ⟨.done, [], [], false, fun _ _ _ => by simp [step]⟩
      | inText escaped =>
          by_cases cut : b = sentinel
          · exact ⟨.done, [], [], false, fun _ _ _ => by simp [step, stepText, cut]⟩
          · by_cases slash : b = backslash
            · subst slash
              exact ⟨.inText (!escaped), [backslash], [], false, fun _ _ _ => by
                simp [step, stepText, cut]⟩
            · by_cases closes : (decide (b = quote) && !escaped) = true
              · exact ⟨.beforeCue false, [], [], true, fun _ _ _ => by
                  simp [step, stepText, cut, slash, closes]⟩
              · exact ⟨.inText false, [plainSpace b], [], false, fun _ _ _ => by
                  simp [step, stepText, cut, slash, closes]⟩

/-- Two scans that take the same bytes from here on, into the same cue and display text. -/
structure Alike (a b : Scan) : Prop where
  phase : a.phase = b.phase
  cue : a.cue = b.cue
  closed : a.closed = b.closed
  text : ∀ more, Text.display (a.text.toList ++ more) = Text.display (b.text.toList ++ more)

theorem Alike.refl (scan : Scan) : Alike scan scan := ⟨rfl, rfl, rfl, fun _ => rfl⟩

theorem Alike.step {a b : Scan} (alike : Alike a b) (byte : UInt8) :
    Alike (a.step byte) (b.step byte) := by
  rcases a with ⟨phase, text, cue, closed⟩
  rcases b with ⟨_, other, _, _⟩
  rcases alike with ⟨rfl, rfl, rfl, shown⟩
  rcases step_eq phase byte with ⟨next, taken, named, closes, stepped⟩
  dsimp only at shown ⊢
  rw [stepped, stepped]
  refine ⟨rfl, rfl, rfl, ?_⟩
  intro more
  simpa using shown (taken ++ more)

theorem Alike.feed {a b : Scan} (alike : Alike a b) (bytes : List UInt8) :
    Alike (a.feed bytes).1 (b.feed bytes).1 ∧ (a.feed bytes).2 = (b.feed bytes).2 := by
  induction bytes generalizing a b with
  | nil => exact ⟨alike, rfl⟩
  | cons byte rest ih =>
      by_cases stopped : a.phase = .done
      · rw [feed_done stopped, feed_done (alike.phase ▸ stopped)]
        exact ⟨alike, rfl⟩
      · rw [feed_cons stopped, feed_cons (alike.phase ▸ stopped)]
        exact ih (alike.step byte)

/-! ## Trimmed lines -/

theorem step_running {scan : Scan} (running : scan.phase ≠ .done) {b : UInt8}
    (within : b ≠ newline) (clean : b ≠ sentinel) : (scan.step b).phase ≠ .done := by
  rcases scan with ⟨phase, text, cue, closed⟩
  cases on : phase.onClosingLine with
  | true =>
      rcases step_closingLine on within clean with ⟨next, _, still, stepped, -⟩
      rw [stepped]
      exact running_of_onClosingLine still
  | false =>
      cases phase with
      | beforeCue _ | inCue | afterCue => cases on
      | done => exact (running rfl).elim
      | inText escaped =>
          simp only [step, stepText, if_neg clean]
          split
          · simp
          · split <;> simp

theorem feed_running (scan : Scan) (running : scan.phase ≠ .done) {bytes : List UInt8}
    (within : newline ∉ bytes) (clean : sentinel ∉ bytes) :
    ∃ after, after.phase ≠ .done ∧ scan.feed bytes = (after, []) := by
  induction bytes generalizing scan with
  | nil => exact ⟨scan, running, rfl⟩
  | cons b rest ih =>
      simp only [List.mem_cons, not_or] at within clean
      rw [feed_cons running]
      exact ih _ (step_running running (Ne.symm within.1) (Ne.symm clean.1)) within.2 clean.2

theorem feed_snd_of_running {scan : Scan} {bytes : List UInt8}
    (running : (scan.feed bytes).1.phase ≠ .done) : (scan.feed bytes).2 = [] := by
  induction bytes generalizing scan with
  | nil => rfl
  | cons b rest ih =>
      by_cases stopped : scan.phase = .done
      · rw [feed_done stopped] at running
        exact (running stopped).elim
      · rw [feed_cons stopped] at running ⊢
        exact ih running

theorem step_blank (escaped : Bool) {b : UInt8} (blank : isSpace b = true)
    (text cue : Array UInt8) (closed : Bool) :
    step b { phase := .inText escaped, text, cue, closed } =
      { phase := .inText false, text := text.push space, cue, closed } := by
  have other : b ≠ sentinel ∧ b ≠ backslash ∧ b ≠ quote := by
    refine ⟨?_, ?_, ?_⟩ <;> intro same <;> subst same <;> cases blank
  simp [step, stepText, other, plainSpace, blank]

theorem feed_blanks (escaped : Bool) {blanks : List UInt8}
    (blank : ∀ b ∈ blanks, isSpace b = true) (text cue : Array UInt8) (closed : Bool) :
    ∃ flag, feed { phase := .inText escaped, text, cue, closed } blanks =
      ({ phase := .inText flag, text := text ++ (List.replicate blanks.length space).toArray,
         cue, closed }, []) := by
  induction blanks generalizing escaped text with
  | nil => exact ⟨escaped, by simp⟩
  | cons b rest ih =>
      obtain ⟨flag, fed⟩ := ih false (fun c member => blank c (List.mem_cons_of_mem b member))
        (text.push space)
      refine ⟨flag, ?_⟩
      have gathered : text.push space ++ (List.replicate rest.length space).toArray =
          text ++ (List.replicate (rest.length + 1) space).toArray := by
        apply Array.toList_inj.mp
        simp [List.replicate_succ]
      rw [feed_cons (by simp), step_blank escaped (blank b List.mem_cons_self), fed, gathered]
      rfl

theorem isCueByte_of_isSpace {b : UInt8} (blank : isSpace b = true) : isCueByte b = false := by
  simp only [isSpace, Bool.or_eq_true, decide_eq_true_eq] at blank
  rcases blank with ((((rfl | rfl) | rfl) | rfl) | rfl) | rfl <;> rfl

theorem isSpace_of_isCueByte {b : UInt8} (named : isCueByte b = true) : isSpace b = false := by
  by_contra blank
  rw [isCueByte_of_isSpace (by simpa using blank)] at named
  cases named

theorem cueFrom_blanks (phase : Phase) {blanks : List UInt8}
    (blank : ∀ b ∈ blanks, isSpace b = true) : cueFrom phase blanks = [] := by
  have skipped : blanks.dropWhile isSpace = [] := List.dropWhile_eq_nil_iff.mpr blank
  cases phase with
  | beforeCue passed => cases passed <;> simp [cueFrom, cueRun, skipped]
  | inCue =>
      cases blanks with
      | nil => rfl
      | cons b rest =>
          simp [cueFrom, isCueByte_of_isSpace (blank b List.mem_cons_self)]
  | _ => rfl

theorem feed_trimEnd {line : List UInt8} (within : newline ∉ line) (clean : sentinel ∉ line)
    (rest : List UInt8) :
    Alike (feed {} (Text.trimEnd line ++ newline :: rest)).1
        (feed {} (line ++ newline :: rest)).1 ∧
      (feed {} (Text.trimEnd line ++ newline :: rest)).2 =
        (feed {} (line ++ newline :: rest)).2 := by
  rcases Text.trimEnd_append_blanks line with ⟨blanks, whole, blank⟩
  generalize Text.trimEnd line = front at whole ⊢
  subst whole
  simp only [List.mem_append, not_or] at within clean
  rcases feed_running {} (by simp) within.1 clean.1 with ⟨scan, running, fed⟩
  rw [feed_append fed, List.append_assoc, feed_append fed]
  rcases scan with ⟨phase, text, cue, closed⟩
  cases on : phase.onClosingLine with
  | true =>
      obtain ⟨next, still, passed⟩ :=
        feed_closingLine { phase, text, cue, closed } on within.2 clean.2
      rw [feed_append passed, feed_closingLine_stop on (.inl rfl),
        feed_closingLine_stop still (.inl rfl), cueFrom_blanks _ blank]
      simpa using Alike.refl _
  | false =>
      cases phase with
      | beforeCue _ | inCue | afterCue => cases on
      | done => exact (running rfl).elim
      | inText escaped =>
          have seen : isSpace newline = true := rfl
          rcases feed_blanks escaped blank text cue closed with ⟨flag, passed⟩
          rw [feed_append passed, feed_cons (by simp), feed_cons (by simp), step_blank _ seen,
            step_blank _ seen]
          have alike : Alike { phase := .inText false, text := text.push space, cue, closed }
              { phase := .inText false
                text := (text ++ (List.replicate blanks.length space).toArray).push space
                cue, closed } := by
            refine ⟨rfl, rfl, rfl, ?_⟩
            intro more
            simpa using (Text.display_append_spaces text.toList more blanks.length).symm
          exact alike.feed rest

theorem Alike.finish {a b : Scan} (alike : Alike a b) :
    Text.display a.finish.text = Text.display b.finish.text ∧ a.finish.cue = b.finish.cue := by
  have shown := alike.text []
  rw [List.append_nil, List.append_nil] at shown
  exact ⟨shown, by simp only [Scan.finish, alike.cue]⟩

end Scan

theorem readQuoted_ofBytes {line : List UInt8} (within : newline ∉ line) (clean : sentinel ∉ line)
    (rest : List UInt8) :
    readQuoted (line ++ [newline]) (.ofBytes rest) =
      .ok ((Scan.feed {} (line ++ newline :: rest)).1.finish,
        .ofBytes (Scan.feed {} (line ++ newline :: rest)).2) := by
  rcases Scan.feed_running {} (by simp) within clean with ⟨scan, running, fed⟩
  have first : Scan.feed {} (line ++ [newline]) = (scan.step newline, []) := by
    rw [Scan.feed_append fed, Scan.feed_cons running, Scan.feed_nil]
  rw [Scan.feed_append fed, Scan.feed_cons running]
  unfold readQuoted
  simp only [first, Source.ofBytes]
  by_cases stopped : ((scan.step newline).feed rest).1.phase = .done
  · rw [if_pos stopped]
  · rw [if_neg stopped, Scan.feed_snd_of_running stopped]
    rfl

end Phrasebook.Plain

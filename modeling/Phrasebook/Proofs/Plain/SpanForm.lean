import Phrasebook.Proofs.Plain.Quoted

/-!
# Quoted text in closed form

Where quoted text ends can be told from its bytes: at the first one that is the
sentinel, or a double quote directly behind an even number of backslashes. What
it says, and how many bytes belong to it, is then a matter of cutting the bytes
at that position. The scanner finds the same (`readQuoted_eq_spanAtFront`),
wherever the line that was read before ends among these bytes.
-/

namespace Phrasebook.Plain

open Bytes

/-! ## The end of the text -/

/-- At this position text is ended by the sentinel, or closed by a quote that is not escaped. -/
def endsTextAt (bytes : List UInt8) (k : Nat) : Bool :=
  bytes[k]? = some sentinel ||
    (bytes[k]? = some quote && backslashRun (bytes.take k) % 2 = 0)

/-- The first position that ends the text. -/
def textEnd? (bytes : List UInt8) : Option Nat :=
  (List.range bytes.length).find? (endsTextAt bytes)

/-- The rest of the line that closes the text: up to its newline, or to a sentinel. -/
def closingLine (rest : List UInt8) : List UInt8 :=
  rest.takeWhile fun b => b ≠ newline && b ≠ sentinel

/-- The name of the recording that a run of cue bytes stands for. -/
def cueNamed (run : List UInt8) : List UInt8 :=
  if run.getLast?.any isDigit then run ++ [0x65] else run

/-- What quoted text at the front of some bytes says, and how many of the bytes belong to it. -/
def spanAtFront (bytes : List UInt8) : Span × Nat :=
  let shown := List.map fun b => if isSpace b then space else b
  match textEnd? bytes with
  | none => ({ text := shown bytes }, bytes.length)
  | some k =>
      if bytes[k]? = some quote then
        let line := closingLine (bytes.drop (k + 1))
        ({ text := shown (bytes.take k), cue := cueNamed (cueRun line), closed := true },
          min (k + 1 + (line.length + 1)) bytes.length)
      else ({ text := shown (bytes.take k) }, k + 1)

theorem escaped_of_unended {bytes : List UInt8} {k : Nat}
    (unended : ∀ j < k, endsTextAt bytes j = false) :
    QuotesEscaped (bytes.take k) ∧ sentinel ∉ bytes.take k := by
  constructor
  · intro front rest whole
    have size := congrArg List.length whole
    simp only [List.length_take, List.length_append, List.length_cons] at size
    have before : front.length < k := by omega
    have start : bytes.take front.length = front := by
      have cut := congrArg (List.take front.length) whole
      rwa [List.take_take, Nat.min_eq_left (Nat.le_of_lt before), List.take_left] at cut
    have here : bytes[front.length]? = some quote := by
      rw [← List.getElem?_take_of_lt before, whole]
      simp
    have passed := unended front.length before
    rw [endsTextAt, here, start] at passed
    have other : quote ≠ sentinel := by decide
    simpa [other] using passed
  · intro member
    obtain ⟨j, inside, here⟩ := List.mem_take_iff_getElem.mp member
    have there : bytes[j]? = some sentinel := by
      rw [List.getElem?_eq_getElem (by omega), here]
    have ended := unended j (by omega)
    rw [endsTextAt, there] at ended
    simp at ended

theorem escaped_of_textEnd?_eq_none {bytes : List UInt8} (nowhere : textEnd? bytes = none) :
    QuotesEscaped bytes ∧ sentinel ∉ bytes := by
  have unended : ∀ j < bytes.length, endsTextAt bytes j = false := by
    intro j inside
    simpa using List.find?_eq_none.mp nowhere j (List.mem_range.mpr inside)
  simpa using escaped_of_unended unended

theorem exists_of_textEnd?_eq_some {bytes : List UInt8} {k : Nat}
    (found : textEnd? bytes = some k) :
    ∃ text b rest, bytes = text ++ b :: rest ∧ text.length = k ∧
      QuotesEscaped text ∧ sentinel ∉ text ∧
      (b = sentinel ∨ b = quote ∧ Quotable text) := by
  obtain ⟨ends, inside, before⟩ := List.find?_range_eq_some.mp found
  rw [List.mem_range] at inside
  have unended : ∀ j < k, endsTextAt bytes j = false := by
    intro j earlier
    simpa using before j earlier
  obtain ⟨escaped, clean⟩ := escaped_of_unended unended
  refine ⟨bytes.take k, bytes[k], bytes.drop (k + 1), ?_, ?_, escaped, clean, ?_⟩
  · rw [← List.drop_eq_getElem_cons inside, List.take_append_drop]
  · exact List.length_take_of_le (Nat.le_of_lt inside)
  · rw [endsTextAt, List.getElem?_eq_getElem inside] at ends
    simp only [Option.some.injEq, Bool.or_eq_true, Bool.and_eq_true, decide_eq_true_eq] at ends
    exact ends.imp id fun closes => ⟨closes.1, escaped, closes.2⟩

/-! ## The scan -/

theorem closingLine_spec (rest : List UInt8) :
    newline ∉ closingLine rest ∧ sentinel ∉ closingLine rest ∧
      (rest = closingLine rest ∨ ∃ stop behind, (stop = newline ∨ stop = sentinel) ∧
        rest = closingLine rest ++ stop :: behind) := by
  have each (b : UInt8) (member : b ∈ closingLine rest) : b ≠ newline ∧ b ≠ sentinel := by
    simpa using List.mem_takeWhile_imp member
  refine ⟨fun member => (each _ member).1 rfl, fun member => (each _ member).2 rfl, ?_⟩
  have whole : closingLine rest ++ rest.dropWhile (fun b => b ≠ newline && b ≠ sentinel) = rest :=
    List.takeWhile_append_dropWhile
  have first := List.head?_dropWhile_not (fun b : UInt8 => b ≠ newline && b ≠ sentinel) rest
  cases left : rest.dropWhile fun b => b ≠ newline && b ≠ sentinel with
  | nil =>
      rw [left, List.append_nil] at whole
      exact .inl whole.symm
  | cons stop behind =>
      rw [left] at whole first
      refine .inr ⟨stop, behind, ?_, whole.symm⟩
      simpa [Decidable.or_iff_not_imp_left] using first

namespace Scan

theorem finish_closed (phase : Phase) (text line : List UInt8) :
    finish { phase, text := (text.map plainSpace).toArray, cue := (cueRun line).toArray,
             closed := true } =
      { text := text.map plainSpace, cue := cueNamed (cueRun line), closed := true } := by
  have named : cueName (cueRun line) = cueNamed (cueRun line) := by
    unfold cueName cueNamed
    cases (cueRun line).getLast? <;> rfl
  simp only [finish, named]

theorem feed_closed_line {text : List UInt8} (quotable : Quotable text) (clean : sentinel ∉ text)
    (rest : List UInt8) :
    ∃ phase, feed {} (text ++ quote :: rest) =
      ({ phase, text := (text.map plainSpace).toArray,
         cue := (cueRun (closingLine rest)).toArray, closed := true },
        rest.drop ((closingLine rest).length + 1)) := by
  obtain ⟨within, cleanLine, whole⟩ := closingLine_spec rest
  generalize closingLine rest = line at within cleanLine whole ⊢
  rcases whole with rfl | ⟨stop, behind, stops, rfl⟩
  · obtain ⟨phase, -, fed⟩ := feed_closingLine
      { phase := .beforeCue false, text := (text.map plainSpace).toArray, closed := true }
      rfl within cleanLine
    refine ⟨phase, ?_⟩
    rw [feed_quote quotable clean, fed]
    simp [cueFrom]
  · refine ⟨.done, ?_⟩
    have fed := feed_closed quotable clean within cleanLine stops behind
    rw [List.append_assoc, List.cons_append] at fed
    rw [fed, ← List.drop_drop, List.drop_left]
    rfl

theorem feed_eq_spanAtFront (bytes : List UInt8) :
    (feed {} bytes).1.finish = (spanAtFront bytes).1 ∧
      (feed {} bytes).2 = bytes.drop (spanAtFront bytes).2 := by
  unfold spanAtFront
  cases found : textEnd? bytes with
  | none =>
      obtain ⟨escaped, clean⟩ := escaped_of_textEnd?_eq_none found
      rw [feed_text escaped clean]
      exact ⟨rfl, List.drop_length.symm⟩
  | some k =>
      obtain ⟨text, b, rest, rfl, rfl, escaped, clean, ends⟩ := exists_of_textEnd?_eq_some found
      have here : (text ++ b :: rest)[text.length]? = some b := by simp
      have behind : (text ++ b :: rest).drop (text.length + 1) = rest := by simp
      rcases ends with rfl | ⟨rfl, quotable⟩
      · have other : some sentinel ≠ some quote := by decide
        rw [feed_cut escaped clean]
        simp only [here, if_neg other, List.take_left]
        exact ⟨rfl, behind.symm⟩
      · obtain ⟨phase, fed⟩ := feed_closed_line quotable clean rest
        simp only [fed, here, if_true, List.take_left, behind]
        refine ⟨finish_closed phase text _, ?_⟩
        calc
          rest.drop ((closingLine rest).length + 1) =
              ((text ++ quote :: rest).drop (text.length + 1)).drop
                ((closingLine rest).length + 1) := by rw [behind]
          _ = (text ++ quote :: rest).drop
                (min (text.length + 1 + ((closingLine rest).length + 1))
                  (text ++ quote :: rest).length) := by
            rw [List.drop_drop, ← List.drop_eq_drop_min]

end Scan

/-! ## Reading -/

theorem length_spanAtFront_le (bytes : List UInt8) : (spanAtFront bytes).2 ≤ bytes.length := by
  unfold spanAtFront
  cases found : textEnd? bytes with
  | none => exact Nat.le_refl _
  | some k =>
      obtain ⟨text, b, rest, rfl, rfl, -, -, -⟩ := exists_of_textEnd?_eq_some found
      dsimp only
      split
      · exact Nat.min_le_right _ _
      · simp

theorem Scan.feed_snd_of_parts {scan : Scan} {front rest : List UInt8} {count : Nat}
    (left : (scan.feed (front ++ rest)).2 = (front ++ rest).drop count)
    (bound : count ≤ (front ++ rest).length) :
    ((scan.feed front).1.feed rest).2 = rest.drop (count - front.length) := by
  have size := congrArg List.length left
  rw [List.length_drop] at size
  rw [List.length_append] at size bound
  by_cases stopped : (scan.feed front).1.phase = .done
  · have unused : count ≤ front.length := by
      rw [feed_append_of_done stopped, List.length_append] at size
      omega
    rw [feed_done stopped, Nat.sub_eq_zero_of_le unused, List.drop_zero]
  · have fed : scan.feed front = ((scan.feed front).1, []) :=
      Prod.ext rfl (feed_snd_of_running stopped)
    rw [feed_append fed] at size
    have tail := feed_snd_suffix (scan.feed front).1 rest
    have shorter := tail.length_le
    rw [List.suffix_iff_eq_drop.mp tail, size]
    congr 1
    omega

theorem readQuoted_eq_feed (lineRest rest : List UInt8) :
    readQuoted lineRest (.ofBytes rest) =
      .ok (((Scan.feed {} lineRest).1.feed rest).1.finish,
        .ofBytes ((Scan.feed {} lineRest).1.feed rest).2) := by
  by_cases stopped : ((Scan.feed {} lineRest).1.feed rest).1.phase = .done
  · exact if_pos stopped
  · rw [Scan.feed_snd_of_running stopped]
    exact if_neg stopped

/--
Quoted text is read as if the line that was read before and the source were one.
What is left of the source is what lies behind the bytes that belong to the text;
if these end within the line, that is the whole source.
-/
theorem readQuoted_eq_spanAtFront (lineRest rest : List UInt8) :
    readQuoted lineRest (.ofBytes rest) =
      .ok ((spanAtFront (lineRest ++ rest)).1,
        .ofBytes (rest.drop ((spanAtFront (lineRest ++ rest)).2 - lineRest.length))) := by
  obtain ⟨span, left⟩ := Scan.feed_eq_spanAtFront (lineRest ++ rest)
  have remaining := Scan.feed_snd_of_parts left (length_spanAtFront_le (lineRest ++ rest))
  rw [readQuoted_eq_feed, remaining, ← Scan.feed_fst_append, span]

/-- The first quote is escaped, the second one stands behind two backslashes. -/
example :
    spanAtFront ([0x61, backslash, quote, newline, 0x62, backslash, backslash, quote] ++
        [space, equals, space, 0x63, 0x39, newline, 0x58]) =
      ({ text := [0x61, backslash, quote, space, 0x62, backslash, backslash]
         cue := [0x63, 0x39, 0x65]
         closed := true }, 14) := by
  decide

end Phrasebook.Plain

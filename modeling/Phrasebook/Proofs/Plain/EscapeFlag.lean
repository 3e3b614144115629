import Phrasebook.Proofs.Plain.EscapedText
import Phrasebook.Proofs.Plain.Loaded
import Phrasebook.Proofs.Plain.SpanForm

/-!
# One notion of what is escaped

The scanner of quoted text and the reader of escapes each keep a flag for a
backslash that waits for its byte. The scanner sees the bytes as they stand in the
file and drops its flag at a newline; the reader sees the text that was gathered,
where each white space is a space.

The invariant, `Scan.InStep`, is that both flags are the same after each byte. So
text is closed only where the reader waits for nothing, and every quote in it is
one that the reader takes as escaped (`unescape_follows_scan`).
-/

namespace Phrasebook

open Bytes

namespace Text

/-! ## The flag of the reader -/

theorem awaitsByte_append (awaiting : Bool) (front rest : List UInt8) :
    awaitsByte awaiting (front ++ rest) = awaitsByte (awaitsByte awaiting front) rest := by
  induction front generalizing awaiting with
  | nil => cases awaiting <;> rfl
  | cons b front ih => cases awaiting <;> exact ih _

theorem awaitsByte_concat (bytes : List UInt8) (b : UInt8) :
    awaitsByte false (bytes ++ [b]) = (!awaitsByte false bytes && b = backslash) := by
  rw [awaitsByte_append]
  cases awaitsByte false bytes <;> simp [awaitsByte]

theorem unescapeFrom_quote (awaiting : Bool) (rest : List UInt8) :
    unescapeFrom awaiting (quote :: rest) = '"' :: unescapeFrom false rest := by
  cases awaiting <;> rfl

theorem unescape_append_quote (before behind : List UInt8) :
    unescape (before ++ quote :: behind) = unescape before ++ "\"" ++ unescape behind := by
  apply String.toList_inj.mp
  simp [unescapeFrom_append, unescapeFrom_quote]

end Text

namespace Plain

namespace Scan

/-! ## Scanner and reader in step -/

/--
A scan that has taken these bytes. As long as it is in text, each byte has left
one in the text and its flag is that of the reader of the text. The reader waits
for nothing where the text is closed, and does so in front of each quote in it.
-/
structure InStep (fed : List UInt8) (scan : Scan) : Prop where
  inText : ∀ escaped, scan.phase = .inText escaped → scan.closed = false ∧
    scan.text.toList = fed.map plainSpace ∧ Text.awaitsByte false scan.text.toList = escaped
  closed : scan.closed = true → Text.awaitsByte false scan.text.toList = false
  quotes : ∀ before behind, scan.text.toList = before ++ quote :: behind →
    Text.awaitsByte false before = true

theorem inStep_start : InStep [] {} where
  inText := by
    rintro escaped ⟨⟩
    exact ⟨rfl, rfl, rfl⟩
  closed := fun closed => by cases closed
  quotes := fun before behind whole => absurd whole.symm (by simp)

/-- Behind the text there is no flag to agree on, only what has been gathered. -/
theorem InStep.outside {fed : List UInt8} {scan : Scan} (inStep : InStep fed scan)
    (bytes : List UInt8) (next : Scan) (text : next.text = scan.text)
    (closed : next.closed = scan.closed) (left : ∀ escaped, next.phase ≠ .inText escaped) :
    InStep bytes next where
  inText := fun escaped still => absurd still (left escaped)
  closed := fun ended => by
    rw [text]
    exact inStep.closed (closed ▸ ended)
  quotes := by
    rw [text]
    exact inStep.quotes

/-- A byte that neither closes the text nor cuts it off leaves scanner and reader in step. -/
theorem InStep.push {fed : List UInt8} {scan : Scan} (inStep : InStep fed scan) {escaped : Bool}
    (reading : scan.phase = .inText escaped) {b : UInt8} (inside : b = quote → escaped = true) :
    InStep (fed ++ [b])
      { scan with
        phase := .inText (!escaped && b = backslash), text := scan.text.push (plainSpace b) } := by
  obtain ⟨unclosed, text, flag⟩ := inStep.inText escaped reading
  constructor
  case inText =>
    rintro next ⟨⟩
    refine ⟨unclosed, ?_, ?_⟩
    · simp [text]
    · rw [Array.toList_push, Text.awaitsByte_concat, flag]
      simp only [plainSpace_eq_iff (show isSpace backslash = false from rfl)]
  case closed =>
    intro closed
    rw [unclosed] at closed
    cases closed
  case quotes =>
    intro before behind whole
    rw [Array.toList_push] at whole
    cases behind using List.reverseRecOn with
    | nil =>
        obtain ⟨same, last⟩ := List.append_inj' whole rfl
        have quoted : plainSpace b = quote := List.singleton_inj.mp last
        rw [← same, flag]
        exact inside ((plainSpace_eq_iff rfl).mp quoted)
    | append_singleton behind c =>
        rw [← List.cons_append, ← List.append_assoc] at whole
        exact inStep.quotes before behind (List.append_inj' whole rfl).1

theorem InStep.stepText {fed : List UInt8} {scan : Scan} (inStep : InStep fed scan)
    {escaped : Bool} (reading : scan.phase = .inText escaped) (b : UInt8) :
    InStep (fed ++ [b]) (scan.stepText escaped b) := by
  obtain ⟨-, -, flag⟩ := inStep.inText escaped reading
  unfold Scan.stepText
  split
  next => exact inStep.outside _ { scan with phase := .done } rfl rfl fun _ still => by cases still
  next =>
    split
    next slash =>
      have kept : plainSpace backslash = backslash := rfl
      have other : backslash ≠ quote := by decide
      subst slash
      simpa [kept] using inStep.push reading fun same => absurd same other
    next other =>
      split
      next closes =>
        have free : escaped = false := by simpa using (Bool.and_eq_true_iff.mp closes).2
        exact {
          inText := fun _ still => by cases still
          closed := fun _ => flag.trans free
          quotes := inStep.quotes }
      next passes =>
        have inside : b = quote → escaped = true := by simpa using passes
        simpa [other] using inStep.push reading inside

theorem step_outside {scan : Scan} (left : ∀ escaped, scan.phase ≠ .inText escaped) (b : UInt8) :
    (scan.step b).text = scan.text ∧ (scan.step b).closed = scan.closed ∧
      ∀ escaped, (scan.step b).phase ≠ .inText escaped := by
  rcases scan with ⟨phase, text, cue, closed⟩
  cases on : phase.onClosingLine with
  | true =>
      by_cases stops : b = newline ∨ b = sentinel
      · rw [step_closingLine_stop on stops]
        exact ⟨rfl, rfl, fun _ still => by cases still⟩
      · obtain ⟨within, clean⟩ := not_or.mp stops
        obtain ⟨next, named, still, stepped, -⟩ := step_closingLine on within clean
        rw [stepped]
        refine ⟨rfl, rfl, ?_⟩
        rintro escaped rfl
        cases still
  | false =>
      cases phase with
      | beforeCue _ | inCue | afterCue => cases on
      | done => exact ⟨rfl, rfl, left⟩
      | inText escaped => exact absurd rfl (left escaped)

theorem InStep.next {fed : List UInt8} {scan : Scan} (inStep : InStep fed scan) (b : UInt8) :
    InStep (fed ++ [b]) (scan.step b) := by
  by_cases reading : ∃ escaped, scan.phase = .inText escaped
  · obtain ⟨escaped, reading⟩ := reading
    have stepped : scan.step b = scan.stepText escaped b := by rw [step, reading]
    exact stepped ▸ inStep.stepText reading b
  · obtain ⟨text, closed, left⟩ := step_outside (not_exists.mp reading) b
    exact inStep.outside _ _ text closed left

theorem InStep.feed {fed : List UInt8} {scan : Scan} (inStep : InStep fed scan)
    (bytes : List UInt8) : InStep (fed ++ bytes) (scan.feed bytes).1 := by
  induction bytes generalizing fed scan with
  | nil => rwa [List.append_nil]
  | cons b rest ih =>
      rw [Scan.feed]
      split
      next stopped => exact inStep.outside _ scan rfl rfl (by simp [stopped])
      next =>
        rw [List.append_cons]
        exact ih (inStep.next b)

theorem inStep_feed (bytes : List UInt8) : InStep bytes (feed {} bytes).1 := by
  simpa using inStep_start.feed bytes

theorem text_feed_eq (bytes : List UInt8) :
    ∃ n, (feed {} bytes).1.text.toList = (bytes.take n).map plainSpace ∧
      ∀ j < n, endsTextAt bytes j = false := by
  cases found : textEnd? bytes with
  | none =>
      obtain ⟨escaped, clean⟩ := escaped_of_textEnd?_eq_none found
      refine ⟨bytes.length, ?_, ?_⟩
      · simp [feed_text escaped clean]
      · intro j inside
        simpa using List.find?_eq_none.mp found j (List.mem_range.mpr inside)
  | some n =>
      obtain ⟨-, -, before⟩ := List.find?_range_eq_some.mp found
      refine ⟨n, ?_, fun j earlier => by simpa using before j earlier⟩
      obtain ⟨text, b, rest, rfl, rfl, escaped, clean, ends⟩ := exists_of_textEnd?_eq_some found
      rw [List.take_left]
      rcases ends with rfl | ⟨rfl, quotable⟩
      · simp [feed_cut escaped clean]
      · obtain ⟨phase, fed⟩ := feed_closed_line quotable clean rest
        simp [fed]

/-- After as many bytes as there are in the text the scan was in text, and in step. -/
theorem phase_feed_take (bytes : List UInt8) {k : Nat}
    (inside : k ≤ (feed {} bytes).1.text.toList.length) :
    (feed {} (bytes.take k)).1.phase =
      .inText (Text.awaitsByte false ((feed {} bytes).1.text.toList.take k)) := by
  obtain ⟨n, text, unended⟩ := text_feed_eq bytes
  rw [text, List.length_map, List.length_take] at inside
  have before : ∀ j < k, endsTextAt bytes j = false := fun j earlier => unended j (by omega)
  obtain ⟨escaped, clean⟩ := escaped_of_unended before
  have reading : (feed {} (bytes.take k)).1.phase =
      .inText (backslashRun (bytes.take k) % 2 = 1) := by rw [feed_text escaped clean]
  obtain ⟨-, front, flag⟩ := (inStep_feed (bytes.take k)).inText _ reading
  have same : (feed {} bytes).1.text.toList.take k = (bytes.take k).map plainSpace := by
    rw [text, ← List.map_take, List.take_take, Nat.min_eq_left (by omega)]
  rw [reading, ← flag, front, same]

end Scan

/-! ## Text that is escaped anew -/

theorem isTextByte_of_mem_escape {bytes : List UInt8} (kept : ∀ b ∈ bytes, IsTextByte b) :
    ∀ b ∈ Text.escape (Text.unescape bytes), IsTextByte b := by
  intro b member
  obtain ⟨c, among, here⟩ := List.mem_flatMap.mp member
  rcases Text.mem_escapeChar here with code | ⟨plain, rfl⟩
  · have codes : ∀ b ∈ [backslash, quote, 0x74, 0x6E], IsTextByte b :=
      Text.forall_mem_codes ⟨by decide, rfl⟩ ⟨by decide, rfl⟩ ⟨by decide, rfl⟩ ⟨by decide, rfl⟩
    exact codes b code
  · rw [Text.toList_unescape] at among
    rcases Text.mem_unescapeFrom among with rfl | rfl | ⟨b, inside, rfl⟩
    · cases plain
    · cases plain
    · rw [Text.narrowChar_widenByte]
      exact kept b inside

/-- It is scanned again as it was written, whatever stands behind its closing quote. -/
theorem readQuoted_escape {bytes more front rest : List UInt8} (kept : ∀ b ∈ bytes, IsTextByte b)
    (whole : front ++ rest = Text.escape (Text.unescape bytes) ++ quote :: more) :
    ∃ span left, readQuoted front (.ofBytes rest) = .ok (span, left) ∧ span.closed = true ∧
      span.text = Text.escape (Text.unescape bytes) := by
  have keptAgain := isTextByte_of_mem_escape kept
  have clean : sentinel ∉ Text.escape (Text.unescape bytes) :=
    fun member => (keptAgain _ member).1 rfl
  have plain : (Text.escape (Text.unescape bytes)).map Scan.plainSpace =
      Text.escape (Text.unescape bytes) :=
    (List.map_congr_left fun b member => (keptAgain b member).2).trans (List.map_id _)
  obtain ⟨phase, fed⟩ := Scan.feed_closed_line (quotable_escape _) clean more
  refine ⟨_, _, readQuoted_eq_feed front rest, ?_, ?_⟩
  · rw [← Scan.feed_fst_append, whole, Text.escape, fed]
    rfl
  · rw [← Scan.feed_fst_append, whole, Text.escape, fed]
    exact plain

/-! ## Quoted text as it is read -/

/--
After each byte that the scanner puts into the text, its flag is that of a reader
of the text so far, and the reader goes on from it. Of text that is closed, the
reader waits for nothing at the end, takes each quote as an escaped one and gives
a quote for it. What it stands for can be escaped, closed by a quote and scanned
again, whichever part of that was read before: it is closed and stands for the same.
-/
theorem unescape_follows_scan (lineRest : List UInt8) (source : Source) :
    let bytes := lineRest ++ source.pending
    let gathered := (Scan.feed {} bytes).1.text.toList
    (∀ k ≤ gathered.length,
        (Scan.feed {} (bytes.take k)).1.phase =
            .inText (Text.awaitsByte false (gathered.take k)) ∧
          Text.unescapeFrom false gathered =
            Text.unescapeFrom false (gathered.take k) ++
              Text.unescapeFrom (Text.awaitsByte false (gathered.take k)) (gathered.drop k)) ∧
      ∀ span left, readQuoted lineRest source = .ok (span, left) → span.text = gathered ∧
        (span.closed = true →
          Text.awaitsByte false span.text = false ∧
            (∀ before behind, span.text = before ++ quote :: behind →
              Text.awaitsByte false before = true ∧
                Text.unescape span.text =
                  Text.unescape before ++ "\"" ++ Text.unescape behind) ∧
            ∀ more front rest,
              front ++ rest = Text.escape (Text.unescape span.text) ++ quote :: more →
              ∃ again left, readQuoted front (.ofBytes rest) = .ok (again, left) ∧
                again.closed = true ∧ Text.unescape again.text = Text.unescape span.text) := by
  intro bytes gathered
  constructor
  · intro k inside
    refine ⟨Scan.phase_feed_take bytes inside, ?_⟩
    rw [← Text.unescapeFrom_append, List.take_append_drop]
  · intro span left read
    obtain ⟨-, rfl⟩ := scanned_of_readQuoted read
    refine ⟨rfl, fun closed => ?_⟩
    have inStep := Scan.inStep_feed bytes
    have kept := (Scan.tidy_start.feed_bytes bytes).finish.text
    refine ⟨inStep.closed closed, ?_, ?_⟩
    · intro before behind whole
      exact ⟨inStep.quotes before behind whole, whole ▸ Text.unescape_append_quote before behind⟩
    · intro more front rest whole
      obtain ⟨again, left, readAgain, closedAgain, text⟩ := readQuoted_escape kept whole
      refine ⟨again, left, readAgain, closedAgain, ?_⟩
      rw [text, unescape_escape_unescape]

/-- A newline stands where a backslash waits for its byte, and a quote behind three backslashes. -/
theorem unescape_follows_scan_newline :
    let lineRest := [0x61, backslash, newline]
    let source := Source.ofBytes [0x62, backslash, backslash, backslash, quote, 0x0D, quote]
    let text := [0x61, backslash, space, 0x62, backslash, backslash, backslash, quote, space]
    readQuoted lineRest source = .ok ({ text, closed := true }, .ofBytes []) ∧
      (Scan.feed {} (lineRest.take 2)).1.phase = .inText (Text.awaitsByte false (text.take 2)) ∧
      (Scan.feed {} lineRest).1.phase = .inText (Text.awaitsByte false (text.take 3)) ∧
      Text.awaitsByte false text = false ∧
      text = text.take 7 ++ quote :: text.drop 8 ∧ Text.awaitsByte false (text.take 7) = true ∧
      ∃ again left,
        readQuoted [] (.ofBytes (Text.escape (Text.unescape text) ++ [quote])) =
            .ok (again, left) ∧
          again.closed = true ∧ Text.unescape again.text = Text.unescape text := by
  intro lineRest source text
  have read : readQuoted lineRest source = .ok ({ text, closed := true }, .ofBytes []) := rfl
  have whole : text = text.take 7 ++ quote :: text.drop 8 := rfl
  obtain ⟨flags, reads⟩ := unescape_follows_scan lineRest source
  obtain ⟨-, closed⟩ := reads _ _ read
  obtain ⟨free, quotes, rescan⟩ := closed rfl
  exact ⟨read, (flags 2 (by decide)).1, (flags 3 (by decide)).1, free, whole,
    (quotes _ _ whole).1, rescan [] [] _ rfl⟩

end Plain

end Phrasebook

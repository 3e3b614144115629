import Phrasebook.Plain.Printer
import Phrasebook.Proofs.Plain.Grammar
import Phrasebook.Proofs.Text.Ascii
import Phrasebook.Proofs.Text.Escaped

/-!
# Writing and loading a plain file

Escaped text has no newline and leaves no double quote open, so that a written
phrase stays on its line whatever it holds, and the reader finds the block as it
was written. Only U+00FF ends a phrase early, and takes the cue with it.
-/

namespace Phrasebook.Plain

open Bytes Source

/-! ## Escaped text between quotes -/

theorem quotable_append_escapeChar {bytes : List UInt8} (quotable : Quotable bytes) (c : Char) :
    Quotable (bytes ++ Text.escapeChar c) := by
  rcases quotable with ⟨escaped, even⟩
  cases special : Text.needsEscape c with
  | false =>
      have plain := Text.narrowChar_of_plain special
      rw [Text.escapeChar_of_plain special]
      refine ⟨quotesEscaped_concat.mpr ⟨escaped, fun same => (plain.2.1 same).elim⟩, ?_⟩
      rw [backslashRun_concat, if_neg plain.1]
  | true =>
      rcases Text.escapeChar_of_needsEscape special with ⟨code, written, -, -⟩
      have odd : backslashRun (bytes ++ [backslash]) = backslashRun bytes + 1 := by
        rw [backslashRun_concat, if_pos rfl]
      have opened : QuotesEscaped (bytes ++ [backslash]) :=
        quotesEscaped_concat.mpr ⟨escaped, fun same => absurd same (by decide)⟩
      have whole : bytes ++ [backslash, code] = bytes ++ [backslash] ++ [code] := by simp
      rw [written, whole]
      refine ⟨quotesEscaped_concat.mpr ⟨opened, fun _ => by omega⟩, ?_⟩
      rw [backslashRun_concat]
      split <;> omega

theorem quotable_escape (chars : List Char) : Quotable (chars.flatMap Text.escapeChar) := by
  induction chars using List.reverseRecOn with
  | nil => exact ⟨quotesEscaped_nil, rfl⟩
  | append_singleton chars c ih =>
      rw [List.flatMap_append, List.flatMap_singleton]
      exact quotable_append_escapeChar ih c

/-- White space that is neither a tab nor a newline is read as a space. -/
def spaced (c : Char) : Char := if c = '\x0B' || c = '\x0C' || c = '\r' then ' ' else c

theorem widenByte_plainSpace {b : UInt8} (noTab : b ≠ tab) (noNewline : b ≠ newline) :
    Text.widenByte (Scan.plainSpace b) = spaced (Text.widenByte b) := by
  have vertical : Text.widenByte b = '\x0B' ↔ b = 0x0B := Text.widenByte_inj (b := 0x0B)
  have feed : Text.widenByte b = '\x0C' ↔ b = 0x0C := Text.widenByte_inj (b := 0x0C)
  have carriage : Text.widenByte b = '\r' ↔ b = 0x0D := Text.widenByte_inj (b := 0x0D)
  unfold Scan.plainSpace spaced isSpace
  simp only [vertical, feed, carriage, noTab, noNewline, decide_false, Bool.or_false]
  by_cases plain : b = space
  · rw [plain]
    rfl
  · simp only [plain, decide_false, Bool.false_or]
    split <;> rfl

theorem unescapeFrom_escape (chars : List Char) :
    Text.unescapeFrom false ((chars.flatMap Text.escapeChar).map Scan.plainSpace) =
      chars.map fun c => spaced (if Text.isLatin c then c else '?') := by
  have codes : ∀ b ∈ [backslash, quote, 0x74, 0x6E], Scan.plainSpace b = b :=
    Text.forall_mem_codes rfl rfl rfl rfl
  refine Text.unescapeFrom_map_escape codes (fun b other => mt (Scan.plainSpace_eq_iff rfl).mp other)
    (fun _ special => Text.of_needsEscape rfl rfl rfl rfl special) ?_
  intro c _ unescaped
  have plain := Text.narrowChar_of_plain unescaped
  rw [widenByte_plainSpace plain.2.2.1 plain.2.2.2, Text.widenByte_narrowChar]

/-! ## Cues -/

/-- The name under which a cue is read back: `e` follows a digit at its end. -/
def namedCue (cue : String) : String :=
  if cue.toList.getLast?.any Char.isDigit then cue ++ "e" else cue

section Cues

variable {cue : String} (named : ∀ c ∈ cue.toList, Text.isCueChar c = true)

include named

theorem utf8_cue : Text.utf8 cue = Text.narrow cue :=
  Text.utf8_eq_narrow fun c member => Text.isCueChar_lt (named c member)

theorem isCueByte_of_mem_narrow {b : UInt8} (member : b ∈ Text.narrow cue) :
    isCueByte b = true := by
  rcases List.mem_map.mp member with ⟨c, inside, same⟩
  have ascii := Text.isCueChar_lt (named c inside)
  rw [← same, Text.isCueByte_narrowChar (by omega)]
  exact named c inside

theorem isSpace_of_mem_narrow {b : UInt8} (member : b ∈ Text.narrow cue) : isSpace b = false :=
  Scan.isSpace_of_isCueByte (isCueByte_of_mem_narrow named member)

theorem cueRun_cuePart : cueRun (cuePart cue) = Text.narrow cue := by
  by_cases silent : cue = ""
  · subst silent
    rfl
  · have start : (Text.narrow cue).dropWhile isSpace = Text.narrow cue := by
      cases bytes : Text.narrow cue with
      | nil => rfl
      | cons b rest =>
          have visible : isSpace b = false := isSpace_of_mem_narrow named (by simp [bytes])
          rw [List.dropWhile_cons_of_neg (by simp [visible])]
    have whole : (Text.narrow cue).takeWhile isCueByte = Text.narrow cue := by
      rw [List.takeWhile_eq_self_iff]
      exact fun b member => isCueByte_of_mem_narrow named member
    have passed : isSpace space = true ∧ isSpace equals = false := ⟨rfl, rfl⟩
    rw [cuePart, if_neg silent, utf8_cue named]
    simp [cueRun, passed, start, whole]

theorem widen_cueName_narrow : Text.widen (Scan.cueName (Text.narrow cue)) = namedCue cue := by
  have back : Text.singleByte cue = cue := Text.singleByte_eq_self fun c member => by
    have ascii := Text.isCueChar_lt (named c member)
    simp only [Text.isLatin, decide_eq_true_eq]
    omega
  have last : (Text.narrow cue).getLast? = cue.toList.getLast?.map Text.narrowChar :=
    List.getLast?_map
  unfold Scan.cueName namedCue
  rw [last]
  cases here : cue.toList.getLast? with
  | none => simpa using back
  | some c =>
      have ascii := Text.isCueChar_lt (named c (List.mem_of_getLast? here))
      have digits : isDigit (Text.narrowChar c) = c.isDigit :=
        Text.isDigit_narrowChar (Nat.lt_trans ascii (by decide))
      simp only [Option.map_some, Option.any_some, digits]
      by_cases digit : c.isDigit = true
      · rw [if_pos digit, if_pos digit, Text.widen_append, Text.widen_narrow, back]
        rfl
      · rw [if_neg digit, if_neg digit, Text.widen_narrow, back]

theorem not_mem_cuePart {b : UInt8} (other : isCueByte b = false) (noSpace : b ≠ space)
    (noSign : b ≠ equals) : b ∉ cuePart cue := by
  intro member
  unfold cuePart at member
  by_cases silent : cue = ""
  · rw [if_pos silent] at member
    cases member
  · rw [if_neg silent, utf8_cue named] at member
    simp only [List.mem_append, List.mem_cons, List.not_mem_nil, or_false] at member
    rcases member with (same | same | same) | inside
    · exact noSpace same
    · exact noSign same
    · exact noSpace same
    · rw [isCueByte_of_mem_narrow named inside] at other
      cases other

theorem getLast?_cuePart (front : List UInt8) :
    (front ++ quote :: cuePart cue).getLast?.any isSpace = false := by
  unfold cuePart
  by_cases silent : cue = ""
  · rw [if_pos silent, List.getLast?_concat]
    rfl
  · have visible : Text.narrow cue ≠ [] := by simpa [Text.narrow] using silent
    rw [if_neg silent, utf8_cue named, ← List.cons_append, ← List.append_assoc,
      List.getLast?_append_of_ne_nil _ visible]
    cases last : (Text.narrow cue).getLast? with
    | none => rfl
    | some b => exact isSpace_of_mem_narrow named (List.mem_of_getLast? last)

end Cues

/-! ## Written blocks -/

/-- The part of a phrase that is read back: what stands before the first U+00FF. -/
def uncut (text : String) : String := String.ofList (text.toList.takeWhile (· ≠ 'ÿ'))

def readBack (e : Entry) : Entry where
  label := Text.widen (Text.escape e.label)
  text := Text.squeeze ((Text.singleByte (uncut e.text)).map spaced)
  cue := if 'ÿ' ∈ e.text.toList then "" else namedCue e.cue

theorem display_escape (chars : List Char) :
    Text.display ((chars.flatMap Text.escapeChar).map Scan.plainSpace) =
      Text.squeeze ((Text.singleByte (String.ofList chars)).map spaced) := by
  have same : Text.unescape ((chars.flatMap Text.escapeChar).map Scan.plainSpace) =
      (Text.singleByte (String.ofList chars)).map spaced := by
    apply String.toList_inj.mp
    simp [unescapeFrom_escape, Text.singleByte, Function.comp_def]
  rw [Text.display, same]

theorem ne_of_not_mem {chars : List Char} (absent : 'ÿ' ∉ chars) :
    ∀ c ∈ chars, decide (c ≠ 'ÿ') = true := by
  intro c member
  simp only [ne_eq, decide_eq_true_eq]
  intro same
  exact absent (same ▸ member)

theorem uncut_of_mem {text : String} {front more : List Char}
    (whole : text.toList = front ++ 'ÿ' :: more) (before : 'ÿ' ∉ front) :
    uncut text = String.ofList front := by
  rw [uncut, whole, List.takeWhile_append_of_pos (ne_of_not_mem before),
    List.takeWhile_cons_of_neg (by simp), List.append_nil]

theorem uncut_of_not_mem {text : String} (absent : 'ÿ' ∉ text.toList) : uncut text = text := by
  rw [uncut, List.takeWhile_eq_self_iff.mpr (ne_of_not_mem absent), String.ofList_toList]

theorem sentinel_not_mem_escape {chars : List Char} (absent : 'ÿ' ∉ chars) :
    sentinel ∉ chars.flatMap Text.escapeChar := by
  intro member
  rcases List.mem_flatMap.mp member with ⟨c, inside, here⟩
  exact absent (Text.eq_of_sentinel_mem_escapeChar here ▸ inside)

/-- The scan of a written phrase is over with its line, and shows what is read back. -/
theorem feed_printed {e : Entry} (named : ∀ c ∈ e.cue.toList, Text.isCueChar c = true) :
    ∃ scan left, Scan.feed {} (Text.escape e.text ++ quote :: cuePart e.cue ++ [newline]) =
        (scan, left) ∧ scan.phase = .done ∧
      scan.finish.shown = ((readBack e).text, (readBack e).cue) := by
  have within : newline ∉ cuePart e.cue := not_mem_cuePart named rfl (by decide) (by decide)
  have clean : sentinel ∉ cuePart e.cue := not_mem_cuePart named rfl (by decide) (by decide)
  by_cases cut : 'ÿ' ∈ e.text.toList
  · rcases List.eq_append_cons_of_mem cut with ⟨front, more, whole, before⟩
    have line : Text.escape e.text ++ quote :: cuePart e.cue ++ [newline] =
        front.flatMap Text.escapeChar ++ sentinel ::
          (more.flatMap Text.escapeChar ++ quote :: cuePart e.cue ++ [newline]) := by
      have mark : Text.escapeChar 'ÿ' = [sentinel] := rfl
      simp [Text.escape, whole, mark]
    have fed := Scan.feed_cut (quotable_escape front).1 (sentinel_not_mem_escape before)
      (more.flatMap Text.escapeChar ++ quote :: cuePart e.cue ++ [newline])
    rw [line]
    refine ⟨_, _, fed, rfl, ?_⟩
    simp only [Span.shown, Scan.finish, readBack, display_escape, uncut_of_mem whole before,
      if_pos cut]
    rfl
  · have closed := Scan.feed_closed (quotable_escape e.text.toList) (sentinel_not_mem_escape cut)
      within clean (.inl rfl) []
    refine ⟨_, _, closed, rfl, ?_⟩
    simp only [Span.shown, Scan.finish, readBack, display_escape, String.ofList_toList,
      uncut_of_not_mem cut, if_neg cut, cueRun_cuePart named, widen_cueName_narrow named]

theorem readQuoted_of_done {lineRest left : List UInt8} {scan : Scan}
    (fed : Scan.feed {} lineRest = (scan, left)) (stopped : scan.phase = .done) (source : Source) :
    readQuoted lineRest source = .ok (scan.finish, source) := by
  simp only [readQuoted, fed, Scan.feed_done stopped, if_pos stopped]

theorem readBodyLine_printed {e : Entry} (named : ∀ c ∈ e.cue.toList, Text.isCueChar c = true) :
    ∃ span : Span, span.shown = ((readBack e).text, (readBack e).cue) ∧ ∀ rest, readBodyLine
          (ofBytes (quote :: Text.escape e.text ++ quote :: cuePart e.cue ++ newline :: rest)) =
        .ok (some (.quoted span, ofBytes rest)) := by
  have within : newline ∉ quote :: Text.escape e.text ++ quote :: cuePart e.cue := by
    have behind : newline ∉ cuePart e.cue := not_mem_cuePart named rfl (by decide) (by decide)
    simp only [List.cons_append, List.mem_cons, List.mem_append, not_or]
    exact ⟨by decide, Text.newline_not_mem_escape e.text, by decide, behind⟩
  have trimmed : Text.trimEdges (quote :: Text.escape e.text ++ quote :: cuePart e.cue) =
      quote :: Text.escape e.text ++ quote :: cuePart e.cue :=
    Text.trimEdges_eq_self rfl (getLast?_cuePart named _)
  rcases feed_printed named with ⟨scan, left, fed, stopped, shown⟩
  refine ⟨scan.finish, shown, ?_⟩
  intro rest
  exact readBodyLine_of_readQuoted (readLine_of_firstLine (.ended within)) trimmed
    (readQuoted_of_done fed stopped _)

/-- A label line that is found as it is written: no white space at its edges, and no comment. -/
structure IsLabel (line : List UInt8) : Prop where
  nonempty : line ≠ []
  first : line.head?.any isSpace = false
  last : line.getLast?.any isSpace = false
  noComment : ¬[slash, slash] <+: line

instance (line : List UInt8) : Decidable (IsLabel line) :=
  decidable_of_iff
    (line ≠ [] ∧ line.head?.any isSpace = false ∧ line.getLast?.any isSpace = false ∧
      ¬[slash, slash] <+: line)
    ⟨fun h => ⟨h.1, h.2.1, h.2.2.1, h.2.2.2⟩, fun h => ⟨h.1, h.2, h.3, h.4⟩⟩

theorem isLabel_of_visible {line : List UInt8} (nonempty : line ≠ [])
    (visible : ∀ b ∈ line, isSpace b = false) (noComment : ¬[slash, slash] <+: line) :
    IsLabel line where
  nonempty := nonempty
  first := by
    cases first : line.head? with
    | none => rfl
    | some b => exact visible b (List.mem_of_head? first)
  last := by
    cases last : line.getLast? with
    | none => rfl
    | some b => exact visible b (List.mem_of_getLast? last)
  noComment := noComment

theorem IsLabel.isComment_eq_false {line : List UInt8} (label : IsLabel line) :
    isComment line = false := by
  rw [← Bool.not_eq_true, isComment, List.isPrefixOf_iff_prefix]
  exact label.noComment

/-- What follows a written entry is read as it stands, whatever the entry holds. -/
theorem readBlocks_printEntry {e : Entry} (label : IsLabel (Text.escape e.label))
    (named : ∀ c ∈ e.cue.toList, Text.isCueChar c = true) :
    ∃ block : Block, block.entry = readBack e ∧ ∀ rest,
      readBlocks (ofBytes (printEntry e ++ rest)) =
        (readBlocks (ofBytes rest)).map (block :: ·) := by
  rcases readBodyLine_printed named with ⟨span, shown, phrase⟩
  refine ⟨{ label := Text.escape e.label, value := some span }, ?_, ?_⟩
  · rw [Block.entry_eq_entryShowing, Option.map_some, shown]
    rfl
  · intro rest
    have whole : printEntry e ++ rest = Text.escape e.label ++ newline ::
        (quote :: Text.escape e.text ++ quote :: cuePart e.cue ++ newline ::
          ([0x45, 0x4E, 0x44] ++ newline :: ([] ++ newline :: rest))) := by
      simp [printEntry]
    have trimmed := Text.trimEdges_eq_self label.first label.last
    have ending : readBodyLine
          (ofBytes ([0x45, 0x4E, 0x44] ++ newline :: ([] ++ newline :: rest))) =
        .ok (some (.ending, ofBytes ([] ++ newline :: rest))) :=
      readBodyLine_ending (.ended (by decide)) (by decide)
    have empty : FirstLine ([] ++ newline :: rest) [] rest := .ended (by simp)
    rw [whole,
      readBlocks_label (readLine_of_firstLine (.ended (Text.newline_not_mem_escape e.label)))
        (by rw [trimmed]; exact label.nonempty) (by rw [trimmed]; exact label.isComment_eq_false),
      trimmed,
      readBody_quoted (phrase _), readBody_ending ending]
    exact congrArg (Except.map _) (readBlocks_passed (readLine_of_firstLine empty) (.inl rfl))

/-! ## Written files -/

theorem readBlocks_print {entries : List Entry}
    (labels : ∀ e ∈ entries, IsLabel (Text.escape e.label))
    (named : ∀ e ∈ entries, ∀ c ∈ e.cue.toList, Text.isCueChar c = true) :
    ∃ blocks, readBlocks (ofBytes (print entries)) = .ok blocks ∧
      blocks.map Block.entry = entries.map readBack := by
  induction entries with
  | nil => exact ⟨[], readBlocks_nil, rfl⟩
  | cons e rest ih =>
      obtain ⟨block, means, front⟩ := readBlocks_printEntry (labels e List.mem_cons_self)
        (named e List.mem_cons_self)
      obtain ⟨blocks, read, others⟩ := ih (fun other member => labels other (.tail e member))
        fun other member => named other (.tail e member)
      refine ⟨block :: blocks, ?_, ?_⟩
      · rw [print, List.flatMap_cons, ← print, front, read]
        rfl
      · rw [List.map_cons, List.map_cons, means, others]

theorem distinct_readBack {entries : List Entry}
    (distinct : entries.Pairwise fun a b =>
      (Text.escape a.label).map foldCase ≠ (Text.escape b.label).map foldCase) :
    DistinctLabels (entries.map readBack) := by
  refine List.pairwise_map.mpr (distinct.imp ?_)
  intro a b apart
  rw [← Bool.not_eq_true, readBack, readBack, Text.same_widen_iff]
  exact apart

theorem widen_escape_label {label : String}
    (plain : ∀ c ∈ label.toList, Text.isLatin c = true ∧ Text.needsEscape c = false) :
    Text.widen (Text.escape label) = label := by
  rw [Text.escape_eq_narrow fun c member => (plain c member).2, Text.widen_narrow,
    Text.singleByte_eq_self fun c member => (plain c member).1]

theorem load_print_eq {entries : List Entry}
    (labels : ∀ e ∈ entries, IsLabel (Text.escape e.label))
    (distinct : entries.Pairwise fun a b =>
      (Text.escape a.label).map foldCase ≠ (Text.escape b.label).map foldCase)
    (named : ∀ e ∈ entries, ∀ c ∈ e.cue.toList, Text.isCueChar c = true) :
    load (.ofBytes (print entries)) =
      .ok
        { entries := entries.map readBack
          maxLabelLen := (entries.map fun e => (Text.escape e.label).length).max?.getD 0
          languageId := 0 } := by
  rcases readBlocks_print labels named with ⟨blocks, read, means⟩
  have lengths : (entries.map readBack).map (fun e => e.label.length) =
      entries.map fun e => (Text.escape e.label).length := by
    simp [readBack, List.map_map, Function.comp_def]
  have listing : Listing.ofBlocks (blocks.map Block.entry) 0 =
      { entries := entries.map readBack
        maxLabelLen := (entries.map fun e => (Text.escape e.label).length).max?.getD 0
        languageId := 0 } := by
    rw [means, Listing.ofBlocks, keepFirst_eq_self (distinct_readBack distinct), longest_eq_max?,
      lengths]
  rw [load, read]
  exact congrArg Except.ok listing

/--
Loading a written file gives one entry for each that was written, in order,
whatever the phrases hold. A phrase is cut at U+00FF and loses its cue there.
-/
theorem load_print_escaped (entries : List Entry)
    (labels : ∀ e ∈ entries, IsLabel (Text.escape e.label))
    (distinct : entries.Pairwise fun a b =>
      (Text.escape a.label).map foldCase ≠ (Text.escape b.label).map foldCase)
    (named : ∀ e ∈ entries, ∀ c ∈ e.cue.toList, Text.isCueChar c = true) :
    load (.ofBytes (print entries)) =
        .ok
          { entries := entries.map fun e =>
              { label := Text.widen (Text.escape e.label)
                text := Text.squeeze ((Text.singleByte (uncut e.text)).map spaced)
                cue := if 'ÿ' ∈ e.text.toList then "" else namedCue e.cue }
            maxLabelLen := (entries.map fun e => (Text.escape e.label).length).max?.getD 0
            languageId := 0 } ∧
      ∀ e ∈ entries,
        (∀ c ∈ e.label.toList, Text.isLatin c = true ∧ Text.needsEscape c = false) →
        Text.widen (Text.escape e.label) = e.label :=
  ⟨load_print_eq labels distinct named, fun _ _ plain => widen_escape_label plain⟩

/-- A phrase that spells a closing line and ends in a backslash, and a phrase that is cut. -/
theorem load_print_escaped_closing_and_cut :
    load (.ofBytes (print
        [{ label := "é\t世", text := "\"\nEND\n//  世\\", cue := "a1" },
          { label := "b", text := "x\x0Byÿz", cue := "c" }])) =
      .ok
        { entries :=
            [{ label := "é\\t?", text := "\"\nEND\n// ?\\", cue := "a1e" },
              { label := "b", text := "x y" }]
          maxLabelLen := 4
          languageId := 0 } ∧
      Text.widen (Text.escape "b") = "b" := by
  have named : ∀ e ∈ [{ label := "é\t世", text := "\"\nEND\n//  世\\", cue := "a1" },
      { label := "b", text := "x\x0Byÿz", cue := "c" : Entry }],
      ∀ c ∈ e.cue.toList, Text.isCueChar c = true := by
    intro e member
    simp only [List.mem_cons, List.not_mem_nil, or_false] at member
    rcases member with rfl | rfl <;> exact List.all_eq_true.mp rfl
  have plain : ∀ c ∈ "b".toList, Text.isLatin c = true ∧ Text.needsEscape c = false :=
    List.forall_mem_singleton.mpr ⟨rfl, rfl⟩
  have written := load_print_escaped _ (by decide) (by decide) named
  refine ⟨written.1.trans ?_, written.2 _ (.tail _ List.mem_cons_self) plain⟩
  cbv

end Phrasebook.Plain

import Mathlib
import Phrasebook.Plain.Block
import Phrasebook.Proofs.Bytes.Front
import Phrasebook.Proofs.FirstUnderLabel
import Phrasebook.Proofs.Plain.Quoted

/-!
# The grammar of a plain file

A plain file is a sequence of lines and quoted texts. The forms below say how
blocks are made of them, in terms of the bytes of the file as they stand: the
reader trims the first line of a quoted text before it scans it, which makes no
difference to what the text shows.

Bytes without the sentinel are loaded exactly if they have the form of a file.
-/

namespace Phrasebook.Plain

open Bytes Source

/-! ## Forms -/

structure Quotation where
  /-- What stands between the quotes, over however many lines. -/
  text : List UInt8
  /-- What stands behind the closing quote on its line. -/
  behind : List UInt8

def Quotation.shown (q : Quotation) : String × String :=
  (Text.display (q.text.map Scan.plainSpace), Text.widen (Scan.cueName (cueRun q.behind)))

/-- What may stand within a block before its end: bytes, the quotation in them, and the rest. -/
inductive BodyItem : List UInt8 → Option Quotation → List UInt8 → Prop
  | line {bytes line rest : List UInt8} (first : FirstLine bytes line rest)
      (goesOn : isEnd (Text.trimEdges line) = false)
      (unquoted : (Text.trimEdges line).head? ≠ some quote) : BodyItem bytes none rest
  | quoted {blanks text behind : List UInt8} (rest : List UInt8)
      (blank : ∀ b ∈ blanks, isSpace b = true ∧ b ≠ newline) (quotable : Quotable text)
      (within : newline ∉ behind) :
      BodyItem (blanks ++ quote :: text ++ quote :: behind ++ newline :: rest)
        (some { text, behind }) rest

/-- The lines of a block behind its label, up to its end, with the first quotation in them. -/
inductive BodyForm : List UInt8 → Option Quotation → List UInt8 → Prop
  | ending {bytes line rest : List UInt8} (first : FirstLine bytes line rest)
      (ends : isEnd (Text.trimEdges line) = true) : BodyForm bytes none rest
  | item {bytes middle rest : List UInt8} {q value : Option Quotation}
      (head : BodyItem bytes q middle) (tail : BodyForm middle value rest) :
      BodyForm bytes (q <|> value) rest

structure WrittenBlock where
  label : List UInt8
  value : Option Quotation

/-- A file is made of lines that are passed over and of blocks. -/
inductive FileForm : List UInt8 → List WrittenBlock → Prop
  | nil : FileForm [] []
  | passed {bytes line rest : List UInt8} {blocks : List WrittenBlock}
      (first : FirstLine bytes line rest)
      (skip : Text.trimEdges line = [] ∨ isComment (Text.trimEdges line) = true)
      (more : FileForm rest blocks) : FileForm bytes blocks
  | block {bytes line body rest : List UInt8} {value : Option Quotation}
      {blocks : List WrittenBlock} (first : FirstLine bytes line body)
      (nonempty : Text.trimEdges line ≠ []) (noComment : isComment (Text.trimEdges line) = false)
      (lines : BodyForm body value rest) (more : FileForm rest blocks) :
      FileForm bytes ({ label := Text.trimEdges line, value } :: blocks)

/-- The entry under a label that shows a text with its cue; without one, its phrase is empty. -/
def entryShowing (label : List UInt8) (shown : Option (String × String)) : Entry where
  label := Text.widen label
  text := (shown.map Prod.fst).getD ""
  cue := (shown.map Prod.snd).getD ""

def WrittenBlock.meaning (block : WrittenBlock) : Entry :=
  entryShowing block.label (block.value.map Quotation.shown)

/-! ## Lines of a block -/

def Span.shown (span : Span) : String × String := (Text.display span.text, Text.widen span.cue)

theorem readBodyLine_unquoted {source rest : Source} {line : List UInt8}
    (first : source.readLine = .ok (some (line, rest)))
    (unquoted : (Text.trimEdges line).head? ≠ some quote) :
    readBodyLine source =
      .ok (some (if isEnd (Text.trimEdges line) = true then .ending else .other, rest)) := by
  simp only [readBodyLine, first]
  cases trimmed : Text.trimEdges line with
  | nil => rfl
  | cons b more =>
      rw [trimmed] at unquoted
      have other : b ≠ quote := fun same => unquoted (congrArg some same)
      dsimp only
      rw [if_neg other]
      cases isEnd (b :: more) <;> rfl

theorem head?_ne_of_isEnd {line : List UInt8} (ends : isEnd line = true) :
    line.head? ≠ some quote := by
  intro quoted
  obtain ⟨more, rfl⟩ := List.head?_eq_some_iff.mp quoted
  have folded : foldCase quote = quote := rfl
  simp only [isEnd, List.map_cons, folded, beq_iff_eq, List.cons.injEq] at ends
  exact absurd ends.1 (by decide)

theorem readBodyLine_ending {bytes line rest : List UInt8} (first : FirstLine bytes line rest)
    (ends : isEnd (Text.trimEdges line) = true) :
    readBodyLine (ofBytes bytes) = .ok (some (.ending, ofBytes rest)) := by
  rw [readBodyLine_unquoted (readLine_of_firstLine first) (head?_ne_of_isEnd ends), if_pos ends]

theorem readBodyLine_other {bytes line rest : List UInt8} (first : FirstLine bytes line rest)
    (goesOn : isEnd (Text.trimEdges line) = false)
    (unquoted : (Text.trimEdges line).head? ≠ some quote) :
    readBodyLine (ofBytes bytes) = .ok (some (.other, ofBytes rest)) := by
  rw [readBodyLine_unquoted (readLine_of_firstLine first) unquoted, goesOn]
  rfl

theorem newline_not_mem_quoted {blanks line : List UInt8}
    (blank : ∀ b ∈ blanks, isSpace b = true ∧ b ≠ newline) (within : newline ∉ line) :
    newline ∉ blanks ++ quote :: line := by
  simp only [List.mem_append, List.mem_cons, not_or]
  exact ⟨fun member => (blank newline member).2 rfl, by decide, within⟩

theorem trimEdges_quoted {blanks : List UInt8}
    (blank : ∀ b ∈ blanks, isSpace b = true ∧ b ≠ newline) (line : List UInt8) :
    Text.trimEdges (blanks ++ quote :: line) = quote :: Text.trimEnd line :=
  Text.trimEdges_eq_cons_iff.mpr ⟨blanks, line, rfl, fun b member => (blank b member).1, rfl, rfl⟩

theorem readBodyLine_of_readQuoted {source rest after : Source} {line more : List UInt8}
    {span : Span} (first : source.readLine = .ok (some (line, rest)))
    (trimmed : Text.trimEdges line = quote :: more)
    (read : readQuoted (more ++ [newline]) rest = .ok (span, after)) :
    readBodyLine source = .ok (some (.quoted span, after)) := by
  simp only [readBodyLine, first, trimmed, if_true, read]

theorem readBodyLine_quote {blanks line : List UInt8} (rest : List UInt8)
    (blank : ∀ b ∈ blanks, isSpace b = true ∧ b ≠ newline) (within : newline ∉ line)
    (clean : sentinel ∉ line) :
    ∃ span, readBodyLine (ofBytes (blanks ++ quote :: line ++ newline :: rest)) =
        .ok (some (.quoted span, ofBytes (Scan.feed {} (line ++ newline :: rest)).2)) ∧
      span.shown = (Scan.feed {} (line ++ newline :: rest)).1.finish.shown := by
  have whole := newline_not_mem_quoted blank within
  have trimmed := trimEdges_quoted blank line
  have read := readQuoted_ofBytes (fun member => within (Text.trimEnd_subset line member))
    (fun member => clean (Text.trimEnd_subset line member)) rest
  have same := Scan.feed_trimEnd within clean rest
  have shown := same.1.finish
  rw [same.2] at read
  exact ⟨_, readBodyLine_of_readQuoted (readLine_of_firstLine (.ended whole)) trimmed read,
    Prod.ext shown.1 (congrArg Text.widen shown.2)⟩

/-- A newline stands somewhere, so that there is a first line, which ends at it or before. -/
theorem exists_line (front rest : List UInt8) :
    ∃ line more, front ++ newline :: rest = line ++ newline :: more ∧ newline ∉ line ∧
      line ⊆ front := by
  by_cases ended : newline ∈ front
  · rcases List.eq_append_cons_of_mem ended with ⟨line, more, whole, within⟩
    exact ⟨line, more ++ newline :: rest, by simp [whole], within, by simp [whole]⟩
  · exact ⟨front, rest, rfl, ended, fun b member => member⟩

theorem readBodyLine_quoted {blanks text behind : List UInt8} (rest : List UInt8)
    (blank : ∀ b ∈ blanks, isSpace b = true ∧ b ≠ newline) (quotable : Quotable text)
    (within : newline ∉ behind) (clean : sentinel ∉ text ++ behind) :
    ∃ span, readBodyLine
          (ofBytes (blanks ++ quote :: text ++ quote :: behind ++ newline :: rest)) =
        .ok (some (.quoted span, ofBytes rest)) ∧
      span.shown = Quotation.shown { text, behind } := by
  rcases exists_line (text ++ quote :: behind) rest with ⟨line, more, whole, withinLine, part⟩
  have cleanBoth := not_or.mp (mt List.mem_append.mpr clean)
  have cleanLine : sentinel ∉ line := by
    intro member
    have inside := part member
    simp only [List.mem_append, List.mem_cons] at inside
    rcases inside with inText | same | inBehind
    · exact cleanBoth.1 inText
    · cases same
    · exact cleanBoth.2 inBehind
  rcases readBodyLine_quote more blank withinLine cleanLine with ⟨span, read, shown⟩
  rw [← whole, Scan.feed_closed quotable cleanBoth.1 within cleanBoth.2 (.inl rfl)] at shown
  have bytes : blanks ++ quote :: text ++ quote :: behind ++ newline :: rest =
      blanks ++ quote :: line ++ newline :: more := by
    simpa using whole
  rw [bytes, read, ← whole, Scan.feed_closed quotable cleanBoth.1 within cleanBoth.2 (.inl rfl)]
  refine ⟨span, rfl, ?_⟩
  rw [shown]
  simp [Span.shown, Quotation.shown, Scan.finish]

theorem readBodyLine_nil : readBodyLine (ofBytes []) = .ok none := rfl

theorem quoted_of_ended {blanks line rest : List UInt8}
    (blank : ∀ b ∈ blanks, isSpace b = true ∧ b ≠ newline) (within : newline ∉ line)
    (clean : sentinel ∉ line ++ newline :: rest) :
    (∃ q after, BodyItem (blanks ++ quote :: line ++ newline :: rest) (some q) after) ∨
      ∃ span, readBodyLine (ofBytes (blanks ++ quote :: line ++ newline :: rest)) =
        .ok (some (.quoted span, ofBytes [])) := by
  rcases Scan.closed_or_feed_eq_nil clean with closed | all
  · rcases closed with ⟨text, behind, after, whole, quotable, withinBehind⟩
    have same : blanks ++ quote :: line ++ newline :: rest =
        blanks ++ quote :: text ++ quote :: behind ++ newline :: after := by
      simpa using whole
    rw [same]
    exact .inl ⟨{ text, behind }, after, .quoted after blank quotable withinBehind⟩
  · have cleanLine : sentinel ∉ line := fun member => clean (List.mem_append_left _ member)
    rcases readBodyLine_quote rest blank within cleanLine with ⟨span, read, -⟩
    rw [all] at read
    exact .inr ⟨span, read⟩

theorem unended_of_last {blanks line : List UInt8}
    (blank : ∀ b ∈ blanks, isSpace b = true ∧ b ≠ newline) (within : newline ∉ line)
    (clean : sentinel ∉ line) :
    ∃ span, readBodyLine (ofBytes (blanks ++ quote :: line)) =
      .ok (some (.quoted span, ofBytes [])) := by
  have whole := newline_not_mem_quoted blank within
  have trimmed := trimEdges_quoted blank line
  have read := readQuoted_ofBytes (fun member => within (Text.trimEnd_subset line member))
    (fun member => clean (Text.trimEnd_subset line member)) []
  have nothing : (Scan.feed {} (Text.trimEnd line ++ [newline])).2 = [] :=
    List.length_eq_zero_iff.mp (Nat.le_zero.mp (readQuoted_le read))
  rw [nothing] at read
  exact ⟨_, readBodyLine_of_readQuoted (readLine_of_firstLine (.last whole (by simp))) trimmed read⟩

theorem quoted_cases {bytes line rest : List UInt8} (first : FirstLine bytes line rest)
    (quoted : (Text.trimEdges line).head? = some quote) (clean : sentinel ∉ bytes) :
    (∃ q after, BodyItem bytes (some q) after) ∨
      ∃ span, readBodyLine (ofBytes bytes) = .ok (some (.quoted span, ofBytes [])) := by
  rcases List.head?_eq_some_iff.mp quoted with ⟨more, trimmed⟩
  rcases Text.trimEdges_eq_cons_iff.mp trimmed with ⟨blanks, body, rfl, blank, -, -⟩
  have blankWithin (within : newline ∉ blanks) : ∀ b ∈ blanks, isSpace b = true ∧ b ≠ newline :=
    fun b member => ⟨blank b member, fun same => within (same ▸ member)⟩
  cases first with
  | ended within =>
      simp only [List.mem_append, List.mem_cons, not_or] at within clean
      apply quoted_of_ended (blankWithin within.1) within.2.2
      simp only [List.mem_append, List.mem_cons, not_or]
      exact ⟨clean.1.2.2, clean.2⟩
  | last within nonempty =>
      simp only [List.mem_append, List.mem_cons, not_or] at within clean
      exact .inr (unended_of_last (blankWithin within.1) within.2.2 clean.2.2)

theorem readBody_quoted {source rest : Source} {span : Span}
    (read : readBodyLine source = .ok (some (.quoted span, rest))) (value : Option Span) :
    readBody value source = readBody (value <|> some span) rest := by
  rw [readBody]
  split <;> simp_all

theorem readBody_ending {source rest : Source}
    (read : readBodyLine source = .ok (some (.ending, rest))) (value : Option Span) :
    readBody value source = .ok (some (value, rest)) := by
  rw [readBody]
  split <;> simp_all

theorem readBody_other {source rest : Source}
    (read : readBodyLine source = .ok (some (.other, rest))) (value : Option Span) :
    readBody value source = readBody value rest := by
  rw [readBody]
  split <;> simp_all

/-! ## Bodies -/

theorem BodyItem.subset {bytes rest : List UInt8} {q : Option Quotation}
    (item : BodyItem bytes q rest) : rest ⊆ bytes := by
  cases item with
  | line first => exact first.subset.2
  | quoted rest =>
      intro b member
      simp [member]

theorem BodyItem.length_lt {bytes rest : List UInt8} {q : Option Quotation}
    (item : BodyItem bytes q rest) : rest.length < bytes.length := by
  cases item with
  | line first => exact first.length_lt
  | quoted rest =>
      simp only [List.length_append, List.length_cons]
      omega

theorem BodyForm.subset {bytes rest : List UInt8} {q : Option Quotation}
    (form : BodyForm bytes q rest) : rest ⊆ bytes := by
  induction form with
  | ending first => exact first.subset.2
  | item head tail ih => exact List.Subset.trans ih head.subset

theorem BodyForm.length_le {bytes rest : List UInt8} {q : Option Quotation}
    (form : BodyForm bytes q rest) : rest.length ≤ bytes.length := by
  induction form with
  | ending first => exact Nat.le_of_lt first.length_lt
  | item head tail ih => exact Nat.le_trans ih (Nat.le_of_lt head.length_lt)

/-- What follows an item is read as it stands, with the quotation of the item found. -/
theorem readBody_item {bytes rest : List UInt8} {q : Option Quotation}
    (item : BodyItem bytes q rest) (clean : sentinel ∉ bytes) :
    ∃ found : Option Span, found.map Span.shown = q.map Quotation.shown ∧
      ∀ value, readBody value (ofBytes bytes) = readBody (value <|> found) (ofBytes rest) := by
  cases item with
  | line first goesOn unquoted =>
      refine ⟨none, rfl, ?_⟩
      intro value
      rw [readBody_other (readBodyLine_other first goesOn unquoted)]
      cases value <;> rfl
  | @quoted blanks text behind rest blank quotable within =>
      have cleanBoth : sentinel ∉ text ++ behind := by
        simp only [List.mem_append, List.mem_cons, not_or] at clean ⊢
        exact ⟨clean.1.1.2.2, clean.1.2.2⟩
      rcases readBodyLine_quoted rest blank quotable within cleanBoth with ⟨span, read, shown⟩
      exact ⟨some span, congrArg some shown, fun value => readBody_quoted read value⟩

/-- A body that has the form is read to its end; a quotation found before it wins. -/
theorem readBody_of_form {bytes rest : List UInt8} {q : Option Quotation}
    (form : BodyForm bytes q rest) (clean : sentinel ∉ bytes) (earlier : Option Span) :
    ∃ found, readBody earlier (ofBytes bytes) = .ok (some (found, ofBytes rest)) ∧
      found.map Span.shown = (earlier.map Span.shown <|> q.map Quotation.shown) := by
  induction form generalizing earlier with
  | ending first ends =>
      refine ⟨earlier, readBody_ending (readBodyLine_ending first ends) earlier, ?_⟩
      cases earlier <;> rfl
  | @item bytes middle rest q value head tail ih =>
      rcases readBody_item head clean with ⟨here, same, pass⟩
      obtain ⟨found, read, shown⟩ :=
        ih (fun member => clean (head.subset member)) (earlier <|> here)
      refine ⟨found, (pass earlier).trans read, ?_⟩
      rw [shown]
      cases earlier with
      | some span => rfl
      | none =>
          have first : (none <|> here) = here := by cases here <;> rfl
          rw [first, same]
          cases q <;> cases value <;> rfl

theorem body_cases {bytes : List UInt8} (nonempty : bytes ≠ []) (clean : sentinel ∉ bytes) :
    (∃ rest, BodyForm bytes none rest) ∨ (∃ q rest, BodyItem bytes q rest) ∨
      ∃ span, readBodyLine (ofBytes bytes) = .ok (some (.quoted span, ofBytes [])) := by
  rcases exists_firstLine nonempty with ⟨line, rest, first⟩
  by_cases quoted : (Text.trimEdges line).head? = some quote
  · rcases quoted_cases first quoted clean with item | unended
    · rcases item with ⟨q, after, item⟩
      exact .inr (.inl ⟨some q, after, item⟩)
    · exact .inr (.inr unended)
  · by_cases ends : isEnd (Text.trimEdges line) = true
    · exact .inl ⟨rest, .ending first ends⟩
    · exact .inr (.inl ⟨none, rest, .line first (by simpa using ends) quoted⟩)

theorem readBody_nil (value : Option Span) : readBody value (ofBytes []) = .ok none := by
  rw [readBody]
  split <;> simp_all [readBodyLine_nil]

theorem form_of_readBody {bytes : List UInt8} {earlier found : Option Span} {after : Source}
    (read : readBody earlier (ofBytes bytes) = .ok (some (found, after)))
    (clean : sentinel ∉ bytes) : ∃ q rest, BodyForm bytes q rest := by
  induction size : bytes.length using Nat.strong_induction_on generalizing bytes earlier with
  | _ size ih =>
      subst size
      have nonempty : bytes ≠ [] := by
        intro empty
        rw [empty, readBody_nil] at read
        cases read
      rcases body_cases nonempty clean with ending | item | unended
      · rcases ending with ⟨rest, ending⟩
        exact ⟨none, rest, ending⟩
      · rcases item with ⟨q, rest, item⟩
        rcases readBody_item item clean with ⟨here, -, pass⟩
        rw [pass earlier] at read
        obtain ⟨value, last, form⟩ :=
          ih _ item.length_lt read (fun member => clean (item.subset member)) rfl
        exact ⟨_, last, .item item form⟩
      · rcases unended with ⟨span, never⟩
        rw [readBody_quoted never, readBody_nil] at read
        cases read

/-! ## Files -/

theorem readBlocks_nil : readBlocks (ofBytes []) = .ok [] := by
  rw [readBlocks]
  rfl

theorem readBlocks_passed {source rest : Source} {line : List UInt8}
    (read : source.readLine = .ok (some (line, rest)))
    (skip : Text.trimEdges line = [] ∨ isComment (Text.trimEdges line) = true) :
    readBlocks source = readBlocks rest := by
  rw [readBlocks]
  split <;> simp_all

theorem readBlocks_label {source body : Source} {line : List UInt8}
    (read : source.readLine = .ok (some (line, body)))
    (nonempty : Text.trimEdges line ≠ []) (noComment : isComment (Text.trimEdges line) = false) :
    readBlocks source =
      match readBody none body with
      | .error fault => .error (.io fault)
      | .ok none => .error (.missingEnd (Text.widen (Text.trimEdges line)))
      | .ok (some (value, rest)) =>
          (readBlocks rest).map ({ label := Text.trimEdges line, value } :: ·) := by
  have label : (decide (Text.trimEdges line = []) || isComment (Text.trimEdges line)) = false := by
    simp [nonempty, noComment]
  rw [readBlocks]
  split
  next failed => cases read.symm.trans failed
  next none => cases read.symm.trans none
  next found =>
    cases read.symm.trans found
    rw [if_neg (by simp [label])]
    split
    next failed => rw [failed]
    next unended => rw [unended]
    next value rest whole =>
      rw [whole]
      dsimp only
      cases readBlocks rest <;> rfl

theorem readBlocks_block {source body rest : Source} {line label : List UInt8}
    {value : Option Span} {blocks : List Block} (read : source.readLine = .ok (some (line, body)))
    (trimmed : Text.trimEdges line = label) (nonempty : label ≠ [])
    (noComment : isComment label = false)
    (lines : readBody none body = .ok (some (value, rest)))
    (more : readBlocks rest = .ok blocks) :
    readBlocks source = .ok ({ label, value } :: blocks) := by
  subst trimmed
  rw [readBlocks_label read nonempty noComment, lines]
  exact congrArg (Except.map _) more

theorem Block.entry_eq_entryShowing (block : Block) :
    block.entry = entryShowing block.label (block.value.map Span.shown) := by
  rcases block with ⟨label, value⟩
  cases value <;> rfl

theorem readBlocks_of_form {data : List UInt8} {written : List WrittenBlock}
    (form : FileForm data written) (clean : sentinel ∉ data) :
    ∃ blocks, readBlocks (ofBytes data) = .ok blocks ∧
      blocks.map Block.entry = written.map WrittenBlock.meaning := by
  induction form with
  | nil => exact ⟨[], readBlocks_nil, rfl⟩
  | passed first skip more ih =>
      rcases ih fun member => clean (first.subset.2 member) with ⟨blocks, read, means⟩
      exact ⟨blocks, (readBlocks_passed (readLine_of_firstLine first) skip).trans read, means⟩
  | @block bytes line body rest value others first nonempty noComment lines more ih =>
      have cleanBody := fun member => clean (first.subset.2 member)
      rcases readBody_of_form lines cleanBody none with ⟨found, body, shown⟩
      rcases ih fun member => cleanBody (lines.subset member) with ⟨blocks, read, means⟩
      refine ⟨{ label := Text.trimEdges line, value := found } :: blocks, ?_, ?_⟩
      · rw [readBlocks_label (readLine_of_firstLine first) nonempty noComment, body]
        exact congrArg (Except.map _) read
      · rw [List.map_cons, List.map_cons, means, Block.entry_eq_entryShowing, shown]
        rfl

theorem form_of_readBlocks {data : List UInt8} {blocks : List Block}
    (read : readBlocks (ofBytes data) = .ok blocks) (clean : sentinel ∉ data) :
    ∃ written, FileForm data written := by
  induction size : data.length using Nat.strong_induction_on generalizing data blocks with
  | _ size ih =>
      subst size
      by_cases empty : data = []
      · exact ⟨[], empty ▸ .nil⟩
      rcases exists_firstLine empty with ⟨line, rest, first⟩
      have cleanRest : sentinel ∉ rest := fun member => clean (first.subset.2 member)
      by_cases skip : Text.trimEdges line = [] ∨ isComment (Text.trimEdges line) = true
      · rw [readBlocks_passed (readLine_of_firstLine first) skip] at read
        rcases ih _ first.length_lt read cleanRest rfl with ⟨written, form⟩
        exact ⟨written, .passed first skip form⟩
      · rcases not_or.mp skip with ⟨nonempty, comment⟩
        have noComment : isComment (Text.trimEdges line) = false := by simpa using comment
        rw [readBlocks_label (readLine_of_firstLine first) nonempty noComment] at read
        split at read
        next failed => cases read
        next unended => cases read
        next value after body =>
          rcases form_of_readBody body cleanRest with ⟨value, last, lines⟩
          rcases readBody_of_form lines cleanRest none with ⟨found, whole, -⟩
          cases whole.symm.trans body
          cases more : readBlocks (ofBytes last) with
          | error e =>
              rw [more] at read
              cases read
          | ok others =>
              have shorter := Nat.lt_of_le_of_lt lines.length_le first.length_lt
              obtain ⟨written, form⟩ :=
                ih _ shorter more (fun member => cleanRest (lines.subset member)) rfl
              exact ⟨_, .block first nonempty noComment lines form⟩

theorem load_eq_map (source : Source) :
    load source = ((readBlocks source).map (List.map Block.entry)).map
      fun entries => Listing.ofBlocks entries 0 := by
  unfold load
  cases readBlocks source <;> rfl

theorem ofBlocks_meaning {blocks : List Block} {written : List WrittenBlock}
    (means : blocks.map Block.entry = written.map WrittenBlock.meaning) (languageId : UInt32) :
    Listing.ofBlocks (blocks.map Block.entry) languageId =
      { entries := unrepeated (written.map WrittenBlock.meaning)
        maxLabelLen := (written.map fun block => block.label.length).max?.getD 0
        languageId } := by
  have lengths : (written.map WrittenBlock.meaning).map (fun e => e.label.length) =
      written.map fun block => block.label.length := by
    simp [WrittenBlock.meaning, entryShowing, List.map_map, Function.comp_def]
  rw [means, Listing.ofBlocks_eq_unrepeated, lengths]

/--
Bytes without the sentinel are a plain file exactly if they are lines to pass
over and blocks. The listing has the entry of each block whose label no earlier
block has.
-/
theorem loads_iff_items (data : List UInt8) (listing : Listing) (clean : sentinel ∉ data) :
    load (.ofBytes data) = .ok listing ↔
      ∃ blocks : List WrittenBlock,
        FileForm data blocks ∧
        listing =
          { entries := unrepeated (blocks.map WrittenBlock.meaning)
            maxLabelLen := (blocks.map fun block => block.label.length).max?.getD 0
            languageId := 0 } := by
  have loaded : ∀ written, FileForm data written →
      load (.ofBytes data) = .ok
        { entries := unrepeated (written.map WrittenBlock.meaning)
          maxLabelLen := (written.map fun block => block.label.length).max?.getD 0
          languageId := 0 } := by
    intro written form
    rcases readBlocks_of_form form clean with ⟨blocks, read, means⟩
    rw [load, read]
    exact congrArg Except.ok (ofBlocks_meaning means 0)
  constructor
  · intro success
    cases read : readBlocks (ofBytes data) with
    | error e =>
        rw [load, read] at success
        cases success
    | ok blocks =>
        rcases form_of_readBlocks read clean with ⟨written, form⟩
        exact ⟨written, form, Except.ok.inj (success.symm.trans (loaded written form))⟩
  · intro h
    rcases h with ⟨written, form, rfl⟩
    exact loaded written form

/-- A quotation over several lines hides a closing line and an escaped quote. -/
theorem loads_iff_items_hidden_end :
    load (.ofBytes ([0x41] ++ newline :: ([space] ++ quote ::
        [0x62, newline, 0x45, 0x4E, 0x44, newline, backslash, quote] ++ quote ::
        [0x63, 0x31] ++ newline :: [0x65, 0x6E, 0x64]))) =
      .ok { entries := [{ label := "A", text := "b END \"", cue := "c1e" }], maxLabelLen := 1,
            languageId := 0 } := by
  let q : Quotation :=
    { text := [0x62, newline, 0x45, 0x4E, 0x44, newline, backslash, quote], behind := [0x63, 0x31] }
  have ending : BodyForm [0x65, 0x6E, 0x64] none [] :=
    .ending (.last (by decide) (by decide)) (by decide)
  have item : BodyItem ([space] ++ quote :: q.text ++ quote :: q.behind ++ newline ::
      [0x65, 0x6E, 0x64]) (some q) [0x65, 0x6E, 0x64] :=
    .quoted _ (List.forall_mem_singleton.mpr (by decide)) (by decide) (by decide)
  have label : FirstLine ([0x41] ++ newline :: ([space] ++ quote :: q.text ++ quote :: q.behind ++
      newline :: [0x65, 0x6E, 0x64])) [0x41] _ := .ended (by decide)
  have form := FileForm.block label (by decide) (by decide) (.item item ending) .nil
  refine (loads_iff_items _ _ (by decide)).mpr ⟨[{ label := [0x41], value := some q }], form, ?_⟩
  cbv

end Phrasebook.Plain

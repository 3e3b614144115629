import Phrasebook.Proofs.Faults
import Phrasebook.Proofs.Plain.LineEndings
import Phrasebook.Proofs.Plain.Loaded

/-!
# The counting pass

The counting pass knows of no blocks. It reads a label as it reads the lines behind
it, and keeps step with the loader all the same, as long as the label is over with its
line: each block has one closing line, and its label may look like another one. A
label that leaves a quote open takes more than its line, and the two passes part. What
the counting pass then misses is covered by the margin, up to `countMargin` blocks.

`countEndings_front` says how the count goes on behind the blocks that keep step.
-/

namespace Phrasebook.Plain

open Bytes Source

/-! ## Label lines -/

/-- The line starts quoted text that is not over with the line. -/
def LeavesOpen (line : List UInt8) : Prop :=
  line.head? = some quote ∧ sentinel ∉ line.tail ∧ QuotesEscaped line.tail

instance (line : List UInt8) : Decidable (LeavesOpen line) :=
  inferInstanceAs (Decidable (_ ∧ _ ∧ _))

theorem not_leavesOpen_of_head? {line : List UInt8} (unquoted : line.head? ≠ some quote) :
    ¬LeavesOpen line :=
  mt And.left unquoted

theorem unquoted_of_passed {line : List UInt8} (skip : line = [] ∨ isComment line = true) :
    line.head? ≠ some quote ∧ isEnd line = false := by
  rcases skip with rfl | comment
  · exact ⟨by simp, rfl⟩
  · rw [isComment, List.isPrefixOf_iff_prefix] at comment
    obtain ⟨more, rfl⟩ := comment
    exact ⟨mt Option.some.inj (by decide), rfl⟩

/-- A quote that is not escaped ends the scan with the line, and the sentinel ends it before. -/
theorem Scan.feed_line_done {more : List UInt8} (within : newline ∉ more)
    (ends : ¬(sentinel ∉ more ∧ QuotesEscaped more)) :
    (Scan.feed {} (more ++ [newline])).1.phase = .done := by
  by_cases cut : sentinel ∈ more
  · rcases List.eq_append_cons_of_mem cut with ⟨front, behind, rfl, clean⟩
    rw [List.append_assoc, List.cons_append]
    rcases quotesEscaped_or_quotable front with escaped | ⟨text, line, rfl, quotable⟩
    · rw [feed_cut escaped clean]
    · simp only [List.mem_append, List.mem_cons, not_or] at clean within
      rw [feed_closed quotable clean.1 within.1.2.2 clean.2.2 (.inr rfl)]
  · rcases quotesEscaped_or_quotable more with escaped | ⟨text, line, rfl, quotable⟩
    · exact (ends ⟨cut, escaped⟩).elim
    · simp only [List.mem_append, List.mem_cons, not_or] at cut within
      rw [feed_closed quotable cut.1 within.2.2 cut.2.2 (.inl rfl)]

theorem readBodyLine_label {source rest : Source} {line : List UInt8}
    (first : source.readLine = .ok (some (line, rest)))
    (closed : ¬LeavesOpen (Text.trimEdges line)) :
    ∃ found, readBodyLine source = .ok (some (found, rest)) ∧
      (found = .ending ↔ isEnd (Text.trimEdges line) = true) := by
  by_cases quoted : (Text.trimEdges line).head? = some quote
  · obtain ⟨more, trimmed⟩ := List.head?_eq_some_iff.mp quoted
    have within : newline ∉ more := by
      intro member
      apply (firstLine_of_readLine first).within
      apply (Text.trimEdges_sublist line).subset
      rw [trimmed]
      exact .tail quote member
    rw [trimmed] at closed
    have stopped := Scan.feed_line_done within fun still => closed ⟨rfl, still⟩
    refine ⟨_, readBodyLine_of_readQuoted first trimmed (readQuoted_of_done rfl stopped rest), ?_⟩
    refine iff_of_false (by simp) fun ends => ?_
    exact head?_ne_of_isEnd ends quoted
  · refine ⟨_, readBodyLine_unquoted first quoted, ?_⟩
    split
    next ends => exact iff_of_true rfl ends
    next goesOn => exact iff_of_false (by simp) goesOn

/-! ## Closing lines -/

theorem countEndings_line {source rest : Source} {line : BodyLine}
    (read : readBodyLine source = .ok (some (line, rest))) :
    countEndings source =
      (countEndings rest).map fun n => if line = .ending then n + 1 else n := by
  rw [countEndings_eq, read]

theorem countEndings_passed {source rest : Source} {line : BodyLine}
    (read : readBodyLine source = .ok (some (line, rest))) (goesOn : line ≠ .ending) :
    countEndings source = countEndings rest := by
  rw [countEndings_line read]
  simp only [if_neg goesOn]
  cases countEndings rest <;> rfl

theorem countEndings_ended {source : Source} (nothing : source.readLine = .ok none) :
    countEndings source = .ok 0 := by
  have read : readBodyLine source = .ok none := by simp only [readBodyLine, nothing]
  rw [countEndings_eq, read]

/-- A block has one closing line, quoted text being passed over as the loader passes over it. -/
theorem countEndings_of_readBody {value found : Option Span} {source rest : Source}
    (read : readBody value source = .ok (some (found, rest))) :
    countEndings source = (countEndings rest).map (· + 1) := by
  fun_induction readBody value source with
  | case1 => cases read
  | case2 => cases read
  | case3 value source span middle line ih | case5 value source middle line ih =>
      rw [countEndings_passed line (by simp), ih read]
  | case4 value source middle line =>
      cases read
      rw [countEndings_line line]
      rfl

/-! ## Blocks -/

theorem countEndings_between {source rest : Source} {line : List UInt8}
    (first : source.readLine = .ok (some (line, rest)))
    (skip : Text.trimEdges line = [] ∨ isComment (Text.trimEdges line) = true) :
    countEndings source = countEndings rest := by
  obtain ⟨unquoted, goesOn⟩ := unquoted_of_passed skip
  exact countEndings_passed (readBodyLine_unquoted first unquoted) (by simp [goesOn])

theorem countEndings_block {source : Source} {block : Block} {more : List Block}
    (read : readBlocks source = .ok (block :: more)) (closed : ¬LeavesOpen block.label) :
    ∃ rest, readBlocks rest = .ok more ∧
      countEndings source =
        (countEndings rest).map (· + 1 + if isEnd block.label = true then 1 else 0) := by
  fun_induction readBlocks source
  case case1 | case2 | case4 | case5 | case6 => cases read
  case case3 source line rest first label skip ih =>
    rw [countEndings_between first (by simpa using skip)]
    exact ih read
  case case7 source line body first label visible value rest whole others readOthers ih =>
    cases read
    obtain ⟨found, line, ending⟩ := readBodyLine_label first closed
    refine ⟨rest, readOthers, ?_⟩
    rw [countEndings_line line, countEndings_of_readBody whole]
    cases countEndings rest with
    | error fault => rfl
    | ok n =>
        simp only [Except.map, ending]
        split <;> rfl

theorem countEndings_of_no_block {source : Source} (read : readBlocks source = .ok []) :
    countEndings source = .ok 0 := by
  fun_induction readBlocks source
  case case1 | case4 | case5 | case6 | case7 => cases read
  case case2 source nothing => exact countEndings_ended nothing
  case case3 source line rest first label skip ih =>
    rw [countEndings_between first (by simpa using skip)]
    exact ih read

theorem countEndings_front {source : Source} {front back : List Block}
    (read : readBlocks source = .ok (front ++ back))
    (closed : ∀ block ∈ front, ¬LeavesOpen block.label) :
    ∃ rest, readBlocks rest = .ok back ∧
      countEndings source =
        (countEndings rest).map
          (· + front.length + front.countP fun block => isEnd block.label) := by
  induction front generalizing source with
  | nil => exact ⟨source, read, by cases countEndings source <;> rfl⟩
  | cons block front ih =>
      rcases List.forall_mem_cons.mp closed with ⟨first, others⟩
      obtain ⟨middle, readMiddle, counted⟩ := countEndings_block read first
      obtain ⟨rest, readRest, more⟩ := ih readMiddle others
      refine ⟨rest, readRest, ?_⟩
      rw [counted, more]
      cases countEndings rest with
      | error fault => rfl
      | ok n =>
          simp only [Except.map, List.length_cons, List.countP_cons, Except.ok.injEq]
          omega

theorem count_of_readBlocks {source : Source} {blocks : List Block}
    (read : readBlocks source = .ok blocks)
    (closed : ∀ block ∈ blocks, ¬LeavesOpen block.label) :
    count source =
      .ok (countMargin + blocks.length + blocks.countP fun block => isEnd block.label) := by
  have whole : readBlocks source = .ok (blocks ++ []) := by rw [read, List.append_nil]
  obtain ⟨rest, nothing, counted⟩ := countEndings_front whole closed
  rw [count, counted, countEndings_of_no_block nothing]
  simp only [Except.map, Except.ok.injEq]
  omega

/--
If a plain file loads and no label starts with a double quote, it is counted as well. The
count is the margin and the number of its blocks, where a block whose label looks like a
closing line counts twice.
-/
theorem count_of_load {source : Source} {listing : Listing} (loaded : load source = .ok listing) :
    ∃ blocks, readBlocks source = .ok blocks ∧
      listing = .ofBlocks (blocks.map Block.entry) 0 ∧
      ((∀ block ∈ blocks, block.label.head? ≠ some quote) →
        count source =
          .ok (countMargin + blocks.length + blocks.countP fun block => isEnd block.label)) := by
  obtain ⟨blocks, read, rfl⟩ := load_eq_ok_iff.mp loaded
  refine ⟨blocks, read, rfl, ?_⟩
  intro unquoted
  exact count_of_readBlocks read fun block member =>
    not_leavesOpen_of_head? (unquoted block member)

/-- The comment looks like a closing line, and the label comes again. -/
def commentedBlock : List UInt8 :=
  [slash, slash, 0x45, 0x4E, 0x44] ++ newline :: ([space, 0x61] ++ newline :: [0x45, 0x4E, 0x44])

/-- The sentinel ends the text within its line. -/
def sentinelBlock : List UInt8 :=
  [0x41] ++ newline ::
    ([quote, 0x70, sentinel, 0x71, quote, newline, 0x45, 0x4E, 0x44, newline] ++ commentedBlock)

/-- The first label is itself a closing line, and its text spells another one. -/
def endLabelFile : List UInt8 :=
  [0x65, 0x4E, 0x64] ++ newline ::
    ([quote, 0x78, newline, 0x45, 0x4E, 0x44, newline, 0x79, quote, newline, 0x65, 0x6E, 0x64,
      newline] ++ sentinelBlock)

theorem readBlocks_endLabelFile :
    readBlocks (.ofBytes endLabelFile) =
      .ok
        [{ label := [0x65, 0x4E, 0x64]
           value := some
             { text := [0x78, space, 0x45, 0x4E, 0x44, space, 0x79], closed := true } },
          { label := [0x41], value := some { text := [0x70] } },
          { label := [0x61], value := none }] := by
  have repeated : readBlocks (.ofBytes ([space, 0x61] ++ newline :: [0x45, 0x4E, 0x44])) =
      .ok [{ label := [0x61], value := none }] :=
    readBlocks_block (readLine_of_firstLine (.ended (by decide))) rfl (by decide) rfl (by cbv)
      readBlocks_nil
  have commented : readBlocks (.ofBytes commentedBlock) = .ok _ :=
    (readBlocks_passed (readLine_of_firstLine (.ended (by decide))) (.inr rfl)).trans repeated
  have cut : readBodyLine (.ofBytes
      ([quote, 0x70, sentinel, 0x71, quote, newline, 0x45, 0x4E, 0x44, newline] ++
        commentedBlock)) =
      .ok (some (.quoted { text := [0x70] },
        .ofBytes ([0x45, 0x4E, 0x44, newline] ++ commentedBlock))) := by
    cbv
  have second : readBlocks (.ofBytes sentinelBlock) = .ok ({ label := [0x41], value := _ } :: _) :=
    readBlocks_block (readLine_of_firstLine (.ended (by decide))) rfl (by decide) rfl
      ((readBody_quoted cut none).trans (readBody_ending (by cbv) _)) commented
  have spelled : readBodyLine (.ofBytes
      ([quote, 0x78, newline, 0x45, 0x4E, 0x44, newline, 0x79, quote, newline, 0x65, 0x6E, 0x64,
        newline] ++ sentinelBlock)) =
      .ok (some
        (.quoted { text := [0x78, space, 0x45, 0x4E, 0x44, space, 0x79], closed := true },
          .ofBytes ([0x65, 0x6E, 0x64, newline] ++ sentinelBlock))) := by
    cbv
  exact readBlocks_block (readLine_of_firstLine (.ended (by decide))) rfl (by decide) rfl
    ((readBody_quoted spelled none).trans (readBody_ending (by cbv) _)) second

theorem count_of_load_endLabelFile :
    load (.ofBytes endLabelFile) =
        .ok
          { entries := [{ label := "eNd", text := "x END y" }, { label := "A", text := "p" }]
            maxLabelLen := 3
            languageId := 0 } ∧
      count (.ofBytes endLabelFile) = .ok 504 := by
  have loaded : load (.ofBytes endLabelFile) =
      .ok
        { entries := [{ label := "eNd", text := "x END y" }, { label := "A", text := "p" }]
          maxLabelLen := 3
          languageId := 0 } :=
    load_eq_ok_iff.mpr ⟨_, readBlocks_endLabelFile, by cbv⟩
  obtain ⟨blocks, read, -, counted⟩ := count_of_load loaded
  cases read.symm.trans readBlocks_endLabelFile
  exact ⟨loaded, counted (by decide)⟩

/-! ## Room for the entries -/

/-- Blocks in front of the first label that leaves a quote open are counted. -/
theorem le_count_of_front {source : Source} {front back : List Block}
    (read : readBlocks source = .ok (front ++ back))
    (closed : ∀ block ∈ front, ¬LeavesOpen block.label) :
    ∃ n, count source = .ok n ∧ countMargin + front.length ≤ n := by
  obtain ⟨rest, readRest, counted⟩ := countEndings_front read closed
  obtain ⟨n, more⟩ := exists_countEndings (fault_of_readBlocks readRest)
  rw [count, counted, more]
  refine ⟨_, rfl, ?_⟩
  dsimp only
  omega

/--
A plain file that loads is counted, and the count covers its entries, unless a label leaves
a quote open and stands in front of as many blocks as the margin covers.
-/
theorem count_covers_of_load {source : Source} {listing : Listing}
    (loaded : load source = .ok listing) :
    ∃ blocks n, readBlocks source = .ok blocks ∧
      listing = .ofBlocks (blocks.map Block.entry) 0 ∧ count source = .ok n ∧
      (n < listing.entries.length →
        ∃ front block back, blocks = front ++ block :: back ∧ LeavesOpen block.label ∧
          countMargin ≤ back.length) := by
  obtain ⟨blocks, read, rfl⟩ := load_eq_ok_iff.mp loaded
  have entries :
      (Listing.ofBlocks (blocks.map Block.entry) 0).entries.length ≤ blocks.length :=
    (keepFirst_sublist _).length_le.trans_eq (List.length_map _)
  cases first : blocks.find? fun block => LeavesOpen block.label with
  | none =>
      have closed : ∀ block ∈ blocks, ¬LeavesOpen block.label := by
        simpa using List.find?_eq_none.mp first
      have counted := count_of_readBlocks read closed
      refine ⟨blocks, _, read, rfl, counted, ?_⟩
      intro lags
      omega
  | some block =>
      obtain ⟨opens, front, back, rfl, closed⟩ := List.find?_eq_some_iff_append.mp first
      obtain ⟨n, counted, covered⟩ := le_count_of_front read (by simpa using closed)
      refine ⟨_, n, read, rfl, counted, ?_⟩
      intro lags
      refine ⟨front, block, back, rfl, of_decide_eq_true opens, ?_⟩
      rw [List.length_append, List.length_cons] at entries
      omega

/-! ## Counts that lag behind -/

/-- A block without text. -/
def bareBlock (label : List UInt8) : List UInt8 :=
  label ++ newline :: ([0x45, 0x4E, 0x44] ++ [newline])

theorem readBlocks_bareBlocks {labels : List (List UInt8)}
    (each : ∀ label ∈ labels, IsLabel label ∧ newline ∉ label) :
    readBlocks (.ofBytes (labels.flatMap bareBlock)) =
      .ok (labels.map fun label => { label, value := none }) := by
  induction labels with
  | nil => exact readBlocks_nil
  | cons label rest ih =>
      rcases List.forall_mem_cons.mp each with ⟨⟨isLabel, within⟩, others⟩
      have whole : (label :: rest).flatMap bareBlock =
          label ++ newline :: ([0x45, 0x4E, 0x44] ++ newline :: rest.flatMap bareBlock) := by
        simp [bareBlock]
      have trimmed : Text.trimEdges label = label :=
        Text.trimEdges_eq_self isLabel.first isLabel.last
      have ending : readBodyLine
            (.ofBytes ([0x45, 0x4E, 0x44] ++ newline :: rest.flatMap bareBlock)) =
          .ok (some (.ending, .ofBytes (rest.flatMap bareBlock))) :=
        readBodyLine_ending (.ended (by decide)) (by decide)
      rw [whole]
      exact readBlocks_block (readLine_of_firstLine (.ended within)) trimmed isLabel.nonempty
        isLabel.isComment_eq_false (readBody_ending ending none) (ih others)

theorem not_mem_bareBlocks {b : UInt8} {labels : List (List UInt8)}
    (each : ∀ label ∈ labels, b ∉ label) (other : b ∉ bareBlock []) :
    b ∉ labels.flatMap bareBlock := by
  intro member
  obtain ⟨label, among, inside⟩ := List.mem_flatMap.mp member
  rcases List.mem_append.mp inside with here | behind
  · exact each label among here
  · exact other behind

/-- If nothing ends the quoted text that the first line starts, no closing line is seen. -/
theorem count_swallowed {line rest : List UInt8} (within : newline ∉ line)
    (escaped : QuotesEscaped (line ++ newline :: rest))
    (clean : sentinel ∉ line ++ newline :: rest) :
    count (.ofBytes (quote :: line ++ newline :: rest)) = .ok countMargin := by
  have cleanLine : sentinel ∉ line := fun member => clean (List.mem_append_left _ member)
  obtain ⟨span, read, -⟩ := @readBodyLine_quote [] line rest (by simp) within cleanLine
  rw [Scan.feed_text escaped clean] at read
  have ended : countEndings (.ofBytes []) = .ok 0 := countEndings_ended rfl
  rw [count, ← List.nil_append (quote :: line), countEndings_passed read (by simp), ended]
  rfl

/-- Blocks whose first label is a lone quote. -/
def swallowedFile (labels : List (List UInt8)) : List UInt8 :=
  ([quote] :: labels).flatMap bareBlock

theorem count_swallowedFile {labels : List (List UInt8)}
    (each : ∀ label ∈ labels,
      IsLabel label ∧ newline ∉ label ∧ quote ∉ label ∧ sentinel ∉ label)
    (distinct : ([quote] :: labels).Pairwise fun a b => a.map foldCase ≠ b.map foldCase) :
    (∃ listing, load (.ofBytes (swallowedFile labels)) = .ok listing ∧
      listing.entries.length = labels.length + 1) ∧
      count (.ofBytes (swallowedFile labels)) = .ok countMargin := by
  refine ⟨?_, ?_⟩
  · have isLabel : ∀ label ∈ [quote] :: labels, IsLabel label ∧ newline ∉ label :=
      List.forall_mem_cons.mpr
        ⟨by decide, fun label member => ⟨(each label member).1, (each label member).2.1⟩⟩
    have unseen : DistinctLabels
        ((([quote] :: labels).map fun label => Block.mk label none).map Block.entry) := by
      refine List.pairwise_map.mpr (List.pairwise_map.mpr (distinct.imp ?_))
      intro a b apart
      rw [← Bool.not_eq_true, Block.entry, Block.entry, Text.same_widen_iff]
      exact apart
    refine ⟨_, load_eq_ok_iff.mpr ⟨_, readBlocks_bareBlocks isLabel, rfl⟩, ?_⟩
    rw [Listing.ofBlocks, keepFirst_eq_self unseen]
    simp
  · have unquoted : quote ∉ ([] :: labels).flatMap bareBlock :=
      not_mem_bareBlocks
        (List.forall_mem_cons.mpr ⟨List.not_mem_nil, fun label member => (each label member).2.2.1⟩)
        (by decide)
    have clean : sentinel ∉ ([] :: labels).flatMap bareBlock :=
      not_mem_bareBlocks
        (List.forall_mem_cons.mpr ⟨List.not_mem_nil, fun label member => (each label member).2.2.2⟩)
        (by decide)
    exact count_swallowed List.not_mem_nil (quotesEscaped_of_not_mem unquoted) clean

def letter (k : Nat) : UInt8 := UInt8.ofNat (0x61 + k)

def letterPair (i : Nat) : List UInt8 := [letter (i / 26), letter (i % 26)]

def letterPairs : List (List UInt8) := (List.range 500).map letterPair

theorem letter_spec {k : Nat} (small : k < 26) :
    isCueByte (letter k) = true ∧ (foldCase (letter k)).toNat = 0x61 + k := by
  have each : ∀ k : Fin 26,
      isCueByte (letter k) = true ∧ (foldCase (letter k)).toNat = 0x61 + k := by decide
  exact each ⟨k, small⟩

theorem isLabel_letterPairs : ∀ label ∈ letterPairs,
    IsLabel label ∧ newline ∉ label ∧ quote ∉ label ∧ sentinel ∉ label := by
  intro label among
  obtain ⟨i, inside, rfl⟩ := List.mem_map.mp among
  have bound := List.mem_range.mp inside
  have named : ∀ b ∈ letterPair i, isCueByte b = true :=
    List.forall_mem_cons.mpr ⟨(letter_spec (by omega)).1,
      List.forall_mem_singleton.mpr (letter_spec (by omega)).1⟩
  have absent {b : UInt8} (other : isCueByte b = false) : b ∉ letterPair i := by
    intro member
    rw [named b member] at other
    cases other
  have noComment : ¬[slash, slash] <+: letterPair i := fun comment =>
    absent (b := slash) rfl (comment.subset List.mem_cons_self)
  have visible : ∀ b ∈ letterPair i, isSpace b = false := fun b member =>
    Scan.isSpace_of_isCueByte (named b member)
  exact ⟨isLabel_of_visible (List.cons_ne_nil _ _) visible noComment, absent rfl, absent rfl,
    absent rfl⟩

theorem distinct_letterPairs :
    ([quote] :: letterPairs).Pairwise fun a b => a.map foldCase ≠ b.map foldCase := by
  refine List.pairwise_cons.mpr ⟨?_, ?_⟩
  · intro label member same
    obtain ⟨i, -, rfl⟩ := List.mem_map.mp member
    cases congrArg List.length same
  · refine List.pairwise_map.mpr (List.pairwise_lt_range.imp_of_mem ?_)
    intro i j first second less same
    have bounds := And.intro (List.mem_range.mp first) (List.mem_range.mp second)
    simp only [letterPair, List.map_cons, List.map_nil, List.cons.injEq, and_true] at same
    have high := congrArg UInt8.toNat same.1
    have low := congrArg UInt8.toNat same.2
    rw [(letter_spec (by omega)).2, (letter_spec (by omega)).2] at high low
    omega

theorem exists_listing_letterPairs :
    ∃ listing, load (.ofBytes (swallowedFile letterPairs)) = .ok listing ∧
      count (.ofBytes (swallowedFile letterPairs)) = .ok countMargin ∧
      countMargin < listing.entries.length := by
  obtain ⟨⟨listing, loaded, entries⟩, counted⟩ :=
    count_swallowedFile isLabel_letterPairs distinct_letterPairs
  refine ⟨listing, loaded, counted, ?_⟩
  rw [entries, letterPairs, List.length_map, List.length_range]
  decide

theorem count_covers_of_load_letterPairs :
    ∃ blocks front block back, readBlocks (.ofBytes (swallowedFile letterPairs)) = .ok blocks ∧
      blocks = front ++ block :: back ∧ LeavesOpen block.label ∧ countMargin ≤ back.length := by
  obtain ⟨listing, loaded, counted, lags⟩ := exists_listing_letterPairs
  obtain ⟨blocks, n, read, -, found, opens⟩ := count_covers_of_load loaded
  cases found.symm.trans counted
  obtain ⟨front, block, back, whole, label, behind⟩ := opens lags
  exact ⟨blocks, front, block, back, read, whole, label, behind⟩

/-- A count may be exceeded, margin and all. -/
theorem not_count_covers :
    ¬∀ (data : List UInt8) (listing : Listing), load (.ofBytes data) = .ok listing →
      ∃ n, count (.ofBytes data) = .ok n ∧ listing.entries.length ≤ n := by
  intro covers
  obtain ⟨listing, loaded, counted, lags⟩ := exists_listing_letterPairs
  obtain ⟨n, found, enough⟩ := covers _ listing loaded
  cases found.symm.trans counted
  exact absurd enough (Nat.not_le.mpr lags)

end Phrasebook.Plain

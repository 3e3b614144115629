import Phrasebook.Proofs.Plain.Loaded

/-!
# Plain files one behind the other

A plain file that loads may stand in front of any other file, if its last line has
its newline. Its lines end where they ended before. Quoted text could run on into
the other file only if it runs to the end of its own; but then nothing is left that
could end its block, and the file does not load. So what stands in front is read as
if nothing followed, and what follows is read as a file of its own. Only the labels
that have been seen remain.

`readBlocks_followedBy` says so for blocks; it is shown for each reader in turn.
-/

namespace Phrasebook.Plain

open Bytes Source

/-! ## Lines -/

/-- The last line has its newline as well. -/
def LinesEnded (bytes : List UInt8) : Prop := bytes = [] ∨ bytes.getLast? = some newline

theorem LinesEnded.suffix {bytes rest : List UInt8} (ended : LinesEnded bytes)
    (left : rest <:+ bytes) : LinesEnded rest := by
  obtain ⟨front, rfl⟩ := left
  by_cases nothing : rest = []
  · exact .inl nothing
  · rcases ended with empty | last
    · exact .inl (List.append_eq_nil_iff.mp empty).2
    · rw [List.getLast?_append_of_ne_nil front nothing] at last
      exact .inr last

theorem LinesEnded.eq_of_firstLine {bytes line rest : List UInt8} (ended : LinesEnded bytes)
    (first : FirstLine bytes line rest) : bytes = line ++ newline :: rest := by
  cases first with
  | ended => rfl
  | last within nonempty =>
      rcases ended with empty | last
      · exact (nonempty empty).elim
      · exact (within (List.mem_of_getLast? last)).elim

section Followed

variable (next : Source)

theorem followedBy_of_readLine {source : Source} (read : source.readLine = .ok none) :
    source.followedBy next = next := by
  have nothing : source.pending = [] := by
    unfold readLine at read
    split at read
    · cases read
    · split at read
      · cases read
      · split at read
        next empty => exact empty
        next => cases read
  rw [followedBy, nothing]
  rfl

theorem readLine_followedBy {source rest : Source} {line : List UInt8}
    (read : source.readLine = .ok (some (line, rest))) (ended : LinesEnded source.pending) :
    (source.followedBy next).readLine = .ok (some (line, rest.followedBy next)) := by
  have first := firstLine_of_readLine read
  have whole : source.pending ++ next.pending =
      line ++ newline :: (rest.pending ++ next.pending) := by
    rw [ended.eq_of_firstLine first, List.append_assoc, List.cons_append]
  simp only [readLine, followedBy, prepend, whole, breakLine?_append first.within]

/-! ## Lines of a block -/

theorem readQuoted_followedBy {lineRest : List UInt8} {source rest : Source} {span : Span}
    (read : readQuoted lineRest source = .ok (span, rest)) (more : rest.pending ≠ []) :
    readQuoted lineRest (source.followedBy next) = .ok (span, rest.followedBy next) := by
  simp only [readQuoted] at read ⊢
  split at read
  next stopped =>
    cases read
    have whole : (source.followedBy next).pending = source.pending ++ next.pending := rfl
    rw [whole, Scan.feed_append_of_done stopped, if_pos stopped]
    rfl
  next =>
    split at read
    next => cases read
    next =>
      cases read
      exact (more rfl).elim

theorem readBodyLine_followedBy {source rest : Source} {line : BodyLine}
    (read : readBodyLine source = .ok (some (line, rest))) (ended : LinesEnded source.pending)
    (more : line = .ending ∨ rest.pending ≠ []) :
    readBodyLine (source.followedBy next) = .ok (some (line, rest.followedBy next)) := by
  unfold readBodyLine at read ⊢
  rcases first : source.readLine with fault | - | ⟨raw, middle⟩
  · rw [first] at read
    cases read
  · rw [first] at read
    cases read
  · rw [first] at read
    rw [readLine_followedBy next first ended]
    dsimp only at read ⊢
    split at read
    next =>
      cases read
      rfl
    next b others trimmed =>
      split at read
      next opens =>
        rcases quoted : readQuoted (others ++ [newline]) middle with fault | ⟨span, left⟩
        · rw [quoted] at read
          cases read
        · rw [quoted] at read
          cases read
          rw [if_pos opens, readQuoted_followedBy next quoted (more.resolve_left (by simp))]
      next other =>
        rw [if_neg other]
        split at read
        next ends =>
          cases read
          rw [if_pos ends]
        next goesOn =>
          cases read
          rw [if_neg goesOn]

theorem pending_ne_nil_of_readBody {value found : Option Span} {source rest : Source}
    (read : readBody value source = .ok (some (found, rest))) : source.pending ≠ [] := by
  have some_line {line : BodyLine} {middle : Source}
      (first : readBodyLine source = .ok (some (line, middle))) : source.pending ≠ [] :=
    List.ne_nil_of_length_pos (Nat.zero_lt_of_lt (readBodyLine_lt first))
  rw [readBody] at read
  split at read
  next => cases read
  next => cases read
  all_goals next first => exact some_line first

theorem readBody_followedBy {value found : Option Span} {source rest : Source}
    (read : readBody value source = .ok (some (found, rest))) (ended : LinesEnded source.pending) :
    readBody value (source.followedBy next) = .ok (some (found, rest.followedBy next)) ∧
      rest.pending <:+ source.pending := by
  fun_induction readBody value source with
  | case1 => cases read
  | case2 => cases read
  | case3 value source span middle line ih =>
      have more := pending_ne_nil_of_readBody read
      have left := (scannedIn_of_readBodyLine line).1
      obtain ⟨again, behind⟩ := ih read (ended.suffix left)
      rw [readBody_quoted (readBodyLine_followedBy next line ended (.inr more)), again]
      exact ⟨rfl, behind.trans left⟩
  | case4 value source middle line =>
      cases read
      rw [readBody_ending (readBodyLine_followedBy next line ended (.inl rfl))]
      exact ⟨rfl, (scannedIn_of_readBodyLine line).1⟩
  | case5 value source middle line ih =>
      have more := pending_ne_nil_of_readBody read
      have left := (scannedIn_of_readBodyLine line).1
      obtain ⟨again, behind⟩ := ih read (ended.suffix left)
      rw [readBody_other (readBodyLine_followedBy next line ended (.inr more)), again]
      exact ⟨rfl, behind.trans left⟩

/-! ## Files -/

theorem readBlocks_followedBy {source : Source} {blocks : List Block}
    (read : readBlocks source = .ok blocks) (ended : LinesEnded source.pending) :
    readBlocks (source.followedBy next) = (readBlocks next).map (blocks ++ ·) := by
  fun_induction readBlocks source generalizing blocks
  case case1 | case4 | case5 | case6 => cases read
  case case2 source nothing =>
    cases read
    rw [followedBy_of_readLine next nothing]
    cases readBlocks next <;> rfl
  case case3 source line rest first label skip ih =>
    have left := (firstLine_of_readLine first).suffix
    rw [readBlocks_passed (readLine_followedBy next first ended) (by simpa using skip)]
    exact ih read (ended.suffix left)
  case case7 source line body first label visible value rest whole others readOthers ih =>
    cases read
    simp only [Bool.or_eq_true, decide_eq_true_eq, not_or, Bool.not_eq_true] at visible
    have endedBody := ended.suffix (firstLine_of_readLine first).suffix
    obtain ⟨again, left⟩ := readBody_followedBy next whole endedBody
    rw [readBlocks_label (readLine_followedBy next first ended) visible.1 visible.2, again]
    dsimp only
    rw [ih readOthers (endedBody.suffix left)]
    cases readBlocks next <;> rfl

theorem load_followedBy {source : Source} {first : Listing} (loaded : load source = .ok first)
    (ended : LinesEnded source.pending) :
    load (source.followedBy next) = (load next).map first.extendedBy := by
  obtain ⟨blocks, read, rfl⟩ := load_eq_ok_iff.mp loaded
  rw [load_eq_map, load_eq_map, readBlocks_followedBy next read ended]
  cases readBlocks next with
  | error e => rfl
  | ok others =>
      have whole := Listing.ofBlocks_append (blocks.map Block.entry) (others.map Block.entry) 0
      rw [← List.map_append] at whole
      exact congrArg Except.ok whole

end Followed

/--
A file that loads and that ends with a newline, or is empty, may be put in front of
another one. If that one loads, its entries follow, but for those whose labels the
first file has; if a block of it lacks its end, so does that block of the whole.
-/
theorem load_append (front back : List UInt8) (first : Listing)
    (ended : front = [] ∨ front.getLast? = some newline)
    (loaded : load (.ofBytes front) = .ok first) :
    (∀ second, load (.ofBytes back) = .ok second →
        load (.ofBytes (front ++ back)) =
          .ok
            { entries := first.entries ++ second.entries.filter fun e => !isRepeat first.entries e
              maxLabelLen := max first.maxLabelLen second.maxLabelLen
              languageId := 0 }) ∧
      ∀ label, load (.ofBytes back) = .error (.missingEnd label) →
        load (.ofBytes (front ++ back)) = .error (.missingEnd label) := by
  have whole : load (.ofBytes (front ++ back)) =
      (load (.ofBytes back)).map first.extendedBy :=
    load_followedBy (.ofBytes back) loaded ended
  have language : first.languageId = 0 := by
    obtain ⟨blocks, -, rfl⟩ := load_eq_ok_iff.mp loaded
    rfl
  refine ⟨?_, ?_⟩
  · intro second more
    rw [whole, more, ← language]
    rfl
  · intro label unended
    rw [whole, unended]
    rfl

/-- The sentinel cuts the text, which has no closing quote. -/
def cutFile : List UInt8 :=
  [0x41] ++ newline :: [quote, 0x78, sentinel, 0x79, newline, 0x45, 0x4E, 0x44, newline]

def lastBlock : List UInt8 := [0x42, 0x43] ++ newline :: [0x45, 0x4E, 0x44]

/-- The label of the first block repeats that of `cutFile`. -/
def repeatingFile : List UInt8 :=
  [0x61] ++ newline :: ([quote, 0x7A, quote, newline, 0x65, 0x6E, 0x64, newline] ++ lastBlock)

/-- The quote is never closed. -/
def openFile : List UInt8 := [0x44] ++ newline :: [quote, 0x45, 0x4E, 0x44, newline]

theorem load_cutFile :
    load (.ofBytes cutFile) =
      .ok { entries := [{ label := "A", text := "x" }], maxLabelLen := 1, languageId := 0 } := by
  have read : readBlocks (.ofBytes cutFile) =
      .ok [{ label := [0x41], value := some { text := [0x78] } }] :=
    readBlocks_block (readLine_of_firstLine (.ended (by decide))) rfl (by decide) rfl (by cbv)
      readBlocks_nil
  exact load_eq_ok_iff.mpr ⟨_, read, by cbv⟩

theorem load_repeatingFile :
    load (.ofBytes repeatingFile) =
      .ok
        { entries := [{ label := "a", text := "z" }, { label := "BC" }]
          maxLabelLen := 2
          languageId := 0 } := by
  have last : readBlocks (.ofBytes lastBlock) = .ok [{ label := [0x42, 0x43], value := none }] :=
    readBlocks_block (readLine_of_firstLine (.ended (by decide))) rfl (by decide) rfl (by cbv)
      readBlocks_nil
  have read : readBlocks (.ofBytes repeatingFile) =
      .ok [{ label := [0x61], value := some { text := [0x7A], closed := true } }, _] :=
    readBlocks_block (readLine_of_firstLine (.ended (by decide))) rfl (by decide) rfl (by cbv) last
  exact load_eq_ok_iff.mpr ⟨_, read, by cbv⟩

theorem load_openFile : load (.ofBytes openFile) = .error (.missingEnd "D") := by
  have label : (ofBytes openFile).readLine =
      .ok (some ([0x44], ofBytes [quote, 0x45, 0x4E, 0x44, newline])) := rfl
  rw [load_eq_map, readBlocks_label label (by decide) rfl]
  cbv

/-- One file goes on behind `cutFile`, another one ends within a block. -/
theorem load_append_cutFile :
    load (.ofBytes (cutFile ++ repeatingFile)) =
        .ok
          { entries := [{ label := "A", text := "x" }, { label := "BC" }]
            maxLabelLen := 2
            languageId := 0 } ∧
      load (.ofBytes (cutFile ++ openFile)) = .error (.missingEnd "D") := by
  obtain ⟨more, -⟩ := load_append cutFile repeatingFile _ (.inr rfl) load_cutFile
  obtain ⟨-, unended⟩ := load_append cutFile openFile _ (.inr rfl) load_cutFile
  refine ⟨(more _ load_repeatingFile).trans ?_, unended _ load_openFile⟩
  cbv

end Phrasebook.Plain

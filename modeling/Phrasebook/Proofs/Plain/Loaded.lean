import Phrasebook.Proofs.Plain.RoundTrip
import Phrasebook.Proofs.Text.Squeezed

/-!
# Entries loaded from a plain file

Whatever bytes a plain file is made of, what is loaded from it has one form. The
scanner keeps no sentinel and of white space only spaces, and for the cue only
the bytes of a cue; a label is a trimmed line. `canonical_of_load` says what
follows for entries: labels, phrases and cues are in single bytes and already as
they are read back.

`Scan.Adds` says once what a step of the scan may gather. The invariant of a
scan, `Scan.Tidy`, is so kept by each byte and by any number of them, from every
source: a fault can only end the bytes. `Block.ReadIn` says of each block where
its label and its value stand in the file.
-/

namespace Phrasebook.Plain

open Bytes Source

/-! ## Scanned bytes -/

/-- A byte that quoted text keeps as it is. -/
def IsTextByte (b : UInt8) : Prop := b ≠ sentinel ∧ Scan.plainSpace b = b

theorem isTextByte_plainSpace {b : UInt8} (clean : b ≠ sentinel) :
    IsTextByte (Scan.plainSpace b) := by
  unfold Scan.plainSpace
  split
  next => exact ⟨by decide, rfl⟩
  next visible => exact ⟨clean, if_neg visible⟩

/-- The bytes gathered for the text and for the cue are such as these keep. -/
structure Scan.Tidy (scan : Scan) : Prop where
  text : ∀ b ∈ scan.text, IsTextByte b
  cue : ∀ b ∈ scan.cue, isCueByte b = true

/-- The same for a span, whose cue may have got an `e` behind it. -/
structure Span.Tidy (span : Span) : Prop where
  text : ∀ b ∈ span.text, IsTextByte b
  cue : ∃ run, span.cue = Scan.cueName run ∧ ∀ b ∈ run, isCueByte b = true

namespace Scan

theorem tidy_start : Tidy {} where
  text := fun _ member => absurd member (Array.not_mem_empty _)
  cue := fun _ member => absurd member (Array.not_mem_empty _)

theorem forall_mem_push {property : UInt8 → Prop} {bytes : Array UInt8} {b : UInt8}
    (each : ∀ c ∈ bytes, property c) (last : property b) : ∀ c ∈ bytes.push b, property c := by
  intro c member
  rcases Array.mem_push.mp member with old | same
  · exact each c old
  · exact same ▸ last

/--
What a step adds to the bytes gathered: nothing, or the byte it takes. No
sentinel is added to the text and nothing but cue bytes to the cue.
-/
structure Adds (b : UInt8) (scan next : Scan) : Prop where
  text : next.text = scan.text ∨ b ≠ sentinel ∧ next.text = scan.text.push (plainSpace b)
  cue : next.cue = scan.cue ∨ isCueByte b = true ∧ next.cue = scan.cue.push b

theorem adds_stepText (escaped : Bool) (b : UInt8) (scan : Scan) :
    Adds b scan (scan.stepText escaped b) := by
  unfold stepText
  split
  · exact ⟨.inl rfl, .inl rfl⟩
  next clean =>
    split
    next slash =>
      subst slash
      exact ⟨.inr ⟨clean, rfl⟩, .inl rfl⟩
    next =>
      split
      · exact ⟨.inl rfl, .inl rfl⟩
      · exact ⟨.inr ⟨clean, rfl⟩, .inl rfl⟩

theorem adds_stepCue (b : UInt8) (scan : Scan) : Adds b scan (scan.stepCue b) := by
  unfold stepCue
  split
  next named => exact ⟨.inl rfl, .inr ⟨named, rfl⟩⟩
  next => exact ⟨.inl rfl, .inl rfl⟩

theorem adds_step (b : UInt8) (scan : Scan) : Adds b scan (scan.step b) := by
  have nothing (phase : Phase) : Adds b scan { scan with phase } := ⟨.inl rfl, .inl rfl⟩
  unfold step
  split
  · exact adds_stepText _ b scan
  · exact nothing scan.phase
  · split
    · exact nothing .done
    · split
      · split
        · exact nothing scan.phase
        · split
          · exact nothing (.beforeCue true)
          · exact adds_stepCue b scan
      · exact adds_stepCue b scan
      · exact nothing scan.phase

theorem Tidy.next {scan next : Scan} (tidy : scan.Tidy) {b : UInt8} (adds : Adds b scan next) :
    next.Tidy where
  text := by
    rcases adds.text with same | ⟨clean, pushed⟩
    · exact same ▸ tidy.text
    · exact pushed ▸ forall_mem_push tidy.text (isTextByte_plainSpace clean)
  cue := by
    rcases adds.cue with same | ⟨named, pushed⟩
    · exact same ▸ tidy.cue
    · exact pushed ▸ forall_mem_push tidy.cue named

theorem Tidy.feed_bytes {scan : Scan} (tidy : scan.Tidy) (bytes : List UInt8) :
    (scan.feed bytes).1.Tidy := by
  induction bytes generalizing scan with
  | nil => exact tidy
  | cons b rest ih =>
      rw [feed]
      split
      · exact tidy
      · exact ih (tidy.next (adds_step b scan))

theorem Tidy.finish {scan : Scan} (tidy : scan.Tidy) : scan.finish.Tidy where
  text := fun b member => tidy.text b (Array.mem_toList_iff.mp member)
  cue := ⟨scan.cue.toList, rfl, fun b member => tidy.cue b (Array.mem_toList_iff.mp member)⟩

end Scan

/-! ## Blocks that were read -/

/--
The span is what a scan makes of bytes that stand behind an opening quote. A
last line that lacks its newline is scanned as if it had one.
-/
def Span.ScannedIn (bytes : List UInt8) (span : Span) : Prop :=
  ∃ fed, (quote :: fed).Sublist (bytes ++ [newline]) ∧ span = (Scan.feed {} fed).1.finish

theorem Span.ScannedIn.mono {bytes more : List UInt8} {span : Span}
    (scanned : span.ScannedIn bytes) (inside : bytes.Sublist more) : span.ScannedIn more := by
  obtain ⟨fed, opened, same⟩ := scanned
  exact ⟨fed, opened.trans (inside.append (List.Sublist.refl _)), same⟩

theorem Span.ScannedIn.tidy {bytes : List UInt8} {span : Span} (scanned : span.ScannedIn bytes) :
    span.Tidy := by
  obtain ⟨fed, -, rfl⟩ := scanned
  exact (Scan.tidy_start.feed_bytes fed).finish

theorem scanned_of_readQuoted {lineRest : List UInt8} {source rest : Source} {span : Span}
    (read : readQuoted lineRest source = .ok (span, rest)) :
    rest.pending <:+ source.pending ∧
      span = (Scan.feed {} (lineRest ++ source.pending)).1.finish := by
  simp only [readQuoted, ← Scan.feed_fst_append] at read
  split at read
  next =>
    cases read
    exact ⟨Scan.feed_snd_suffix _ _, rfl⟩
  next =>
    split at read
    next => cases read
    next =>
      cases read
      exact ⟨List.nil_suffix, rfl⟩

theorem scannedIn_of_readBodyLine {source rest : Source} {line : BodyLine}
    (read : readBodyLine source = .ok (some (line, rest))) :
    rest.pending <:+ source.pending ∧
      ∀ span, line = .quoted span → span.ScannedIn source.pending := by
  simp only [readBodyLine] at read
  split at read
  next => cases read
  next => cases read
  next raw middle first =>
    have firstLine := firstLine_of_readLine first
    split at read
    next =>
      cases read
      exact ⟨firstLine.suffix, fun span other => by cases other⟩
    next b more trimmed =>
      split at read
      next opens =>
        subst opens
        split at read
        next => cases read
        next quoted =>
          cases read
          obtain ⟨left, scanned⟩ := scanned_of_readQuoted quoted
          refine ⟨left.trans firstLine.suffix, ?_⟩
          rintro span ⟨⟩
          have opened : (quote :: more).Sublist raw := trimmed ▸ Text.trimEdges_sublist raw
          refine ⟨_, ?_, scanned⟩
          rw [List.append_assoc]
          exact (opened.append (List.Sublist.refl _)).trans firstLine.sublist_concat
      next =>
        split at read <;> cases read
        · exact ⟨firstLine.suffix, fun span other => by cases other⟩
        · exact ⟨firstLine.suffix, fun span other => by cases other⟩

theorem scannedIn_of_readBody {bytes : List UInt8} {value found : Option Span}
    {source rest : Source} (read : readBody value source = .ok (some (found, rest)))
    (inside : source.pending.Sublist bytes) (held : ∀ span ∈ value, span.ScannedIn bytes) :
    rest.pending.Sublist bytes ∧ ∀ span ∈ found, span.ScannedIn bytes := by
  fun_induction readBody value source with
  | case1 => cases read
  | case2 => cases read
  | case3 value source span middle line ih =>
      obtain ⟨left, scanned⟩ := scannedIn_of_readBodyLine line
      apply ih read (left.sublist.trans inside)
      intro other member
      cases value with
      | some first => exact held other member
      | none =>
          cases member
          exact (scanned span rfl).mono inside
  | case4 value source middle line =>
      cases read
      exact ⟨(scannedIn_of_readBodyLine line).1.sublist.trans inside, held⟩
  | case5 value source middle line ih =>
      exact ih read ((scannedIn_of_readBodyLine line).1.sublist.trans inside) held

/-- The label is a line among the bytes, and the value, if there is one, stands behind that line. -/
structure Block.ReadIn (bytes : List UInt8) (block : Block) : Prop where
  isLabel : IsLabel block.label
  within : newline ∉ block.label
  label : block.label.Sublist bytes
  value : ∀ span ∈ block.value, ∃ body : List UInt8,
    body.Sublist bytes ∧ body.length < bytes.length ∧ span.ScannedIn body

theorem Block.ReadIn.mono {bytes more : List UInt8} {block : Block} (read : block.ReadIn bytes)
    (inside : bytes.Sublist more) : block.ReadIn more where
  isLabel := read.isLabel
  within := read.within
  label := read.label.trans inside
  value := by
    intro span member
    obtain ⟨body, part, shorter, scanned⟩ := read.value span member
    exact ⟨body, part.trans inside, Nat.lt_of_lt_of_le shorter inside.length_le, scanned⟩

theorem isLabel_trimEdges {line : List UInt8} (nonempty : Text.trimEdges line ≠ [])
    (noComment : isComment (Text.trimEdges line) = false) : IsLabel (Text.trimEdges line) where
  nonempty := nonempty
  first := Text.head?_trimEdges line
  last := Text.getLast?_trimEdges line
  noComment := by
    rw [isComment, ← Bool.not_eq_true, List.isPrefixOf_iff_prefix] at noComment
    exact noComment

theorem readIn_of_readBlocks {source : Source} {blocks : List Block}
    (read : readBlocks source = .ok blocks) : ∀ block ∈ blocks, block.ReadIn source.pending := by
  fun_induction readBlocks source generalizing blocks
  case case1 | case4 | case5 | case6 => cases read
  case case2 =>
    cases read
    exact fun _ member => absurd member List.not_mem_nil
  case case3 source line rest first label passed ih =>
    exact fun block member => (ih read block member).mono (firstLine_of_readLine first).sublist.2
  case case7 source line body first label visible value rest whole others readOthers ih =>
    cases read
    have firstLine := firstLine_of_readLine first
    rcases scannedIn_of_readBody whole (List.Sublist.refl _) (fun _ member => by cases member) with
      ⟨left, scanned⟩
    simp only [Bool.or_eq_true, decide_eq_true_eq, not_or, Bool.not_eq_true] at visible
    refine List.forall_mem_cons.mpr ⟨?_, ?_⟩
    · exact
        { isLabel := isLabel_trimEdges visible.1 visible.2
          within := fun member => firstLine.within ((Text.trimEdges_sublist line).subset member)
          label := (Text.trimEdges_sublist line).trans firstLine.sublist.1
          value := fun span member =>
            ⟨body.pending, firstLine.sublist.2, readLine_lt first, scanned span member⟩ }
    · intro block member
      exact (ih readOthers block member).mono (left.trans firstLine.sublist.2)

/-! ## Loaded entries -/

/-- Label, phrase and cue are such as a plain file shows them, and stay so when read back. -/
structure Canonical (e : Entry) : Prop where
  label : ∃ line, e.label = Text.widen line ∧ IsLabel line ∧ newline ∉ line
  text : ∀ c ∈ e.text.toList, Text.isLatin c = true ∧ c ≠ 'ÿ' ∧ spaced c = c
  spacing : Text.squeeze e.text = e.text
  cue : ∀ c ∈ e.cue.toList, Text.isCueChar c = true
  named : namedCue e.cue = e.cue

theorem widenByte_of_isTextByte {b : UInt8} (kept : IsTextByte b) :
    Text.widenByte b ≠ 'ÿ' ∧ spaced (Text.widenByte b) = Text.widenByte b := by
  obtain ⟨clean, same⟩ := kept
  have noTab : b ≠ tab := by
    intro eq
    rw [eq] at same
    exact absurd same (by decide)
  have noNewline : b ≠ newline := by
    intro eq
    rw [eq] at same
    exact absurd same (by decide)
  refine ⟨fun mark => clean (Text.widenByte_inj.mp mark), ?_⟩
  rw [← widenByte_plainSpace noTab noNewline, same]

theorem mem_display {bytes : List UInt8} (kept : ∀ b ∈ bytes, IsTextByte b) {c : Char}
    (member : c ∈ (Text.display bytes).toList) :
    Text.isLatin c = true ∧ c ≠ 'ÿ' ∧ spaced c = c := by
  have unescaped := Text.mem_of_mem_squeeze member
  rw [Text.toList_unescape] at unescaped
  rcases Text.mem_unescapeFrom unescaped with same | same | ⟨b, among, same⟩
  · rw [same]
    decide
  · rw [same]
    decide
  · rw [same]
    exact ⟨Text.isLatin_widenByte b, widenByte_of_isTextByte (kept b among)⟩

theorem isCueChar_of_mem_widen {run : List UInt8} (named : ∀ b ∈ run, isCueByte b = true)
    {c : Char} (member : c ∈ (Text.widen run).toList) : Text.isCueChar c = true := by
  rw [Text.toList_widen] at member
  obtain ⟨b, among, rfl⟩ := List.mem_map.mp member
  rw [← Text.isCueByte_narrowChar (of_decide_eq_true (Text.isLatin_widenByte b)),
    Text.narrowChar_widenByte]
  exact named b among

theorem isCueChar_of_mem_namedCue {cue : String} (named : ∀ c ∈ cue.toList, Text.isCueChar c = true)
    {c : Char} (member : c ∈ (namedCue cue).toList) : Text.isCueChar c = true := by
  unfold namedCue at member
  split at member
  next =>
    rw [String.toList_append] at member
    rcases List.mem_append.mp member with inside | last
    · exact named c inside
    · rw [List.mem_singleton.mp last]
      rfl
  next => exact named c member

theorem namedCue_namedCue (cue : String) : namedCue (namedCue cue) = namedCue cue := by
  cases digit : cue.toList.getLast?.any Char.isDigit with
  | false =>
      have same : namedCue cue = cue := by rw [namedCue, digit, if_neg Bool.false_ne_true]
      rw [same, same]
  | true =>
      have longer : namedCue cue = cue ++ "e" := by rw [namedCue, if_pos digit]
      have last : (cue ++ "e").toList.getLast? = some 'e' := by
        rw [String.toList_append]
        exact List.getLast?_concat
      rw [longer, namedCue, last]
      rfl

theorem Span.Tidy.cueNamed {span : Span} (tidy : span.Tidy) :
    (∀ c ∈ (Text.widen span.cue).toList, Text.isCueChar c = true) ∧
      namedCue (Text.widen span.cue) = Text.widen span.cue := by
  obtain ⟨run, whole, each⟩ := tidy.cue
  have chars := fun c => @isCueChar_of_mem_widen run each c
  have named : Text.widen span.cue = namedCue (Text.widen run) := by
    rw [whole, ← widen_cueName_narrow chars, Text.narrow_widen]
  rw [named]
  exact ⟨fun c member => isCueChar_of_mem_namedCue chars member, namedCue_namedCue _⟩

theorem canonical_entry {bytes : List UInt8} {block : Block} (read : block.ReadIn bytes) :
    Canonical block.entry := by
  obtain ⟨label, value⟩ := block
  have shownLabel : ∃ line, Text.widen label = Text.widen line ∧ IsLabel line ∧ newline ∉ line :=
    ⟨label, rfl, read.isLabel, read.within⟩
  cases value with
  | none =>
      exact
        { label := shownLabel
          text := fun _ member => absurd member (by simp [Block.entry])
          spacing := rfl
          cue := fun _ member => absurd member (by simp [Block.entry])
          named := rfl }
  | some span =>
      obtain ⟨_, -, -, scanned⟩ := read.value span rfl
      have shown := scanned.tidy
      exact
        { label := shownLabel
          text := fun _ member => mem_display shown.text member
          spacing := Text.squeeze_squeeze _
          cue := shown.cueNamed.1
          named := shown.cueNamed.2 }

theorem load_eq_ok_iff {source : Source} {listing : Listing} :
    load source = .ok listing ↔
      ∃ blocks, readBlocks source = .ok blocks ∧
        listing = .ofBlocks (blocks.map Block.entry) 0 := by
  unfold load
  cases readBlocks source <;> simp [bind, Except.bind, pure, Except.pure, eq_comm]

theorem exists_block_of_load {source : Source} {listing : Listing}
    (loaded : load source = .ok listing) {e : Entry} (member : e ∈ listing.entries) :
    ∃ block : Block, block.ReadIn source.pending ∧ block.entry = e := by
  obtain ⟨blocks, read, rfl⟩ := load_eq_ok_iff.mp loaded
  obtain ⟨block, among, same⟩ := List.mem_map.mp (mem_of_mem_keepFirst member)
  exact ⟨block, readIn_of_readBlocks read block among, same⟩

theorem canonical_of_load {source : Source} {listing : Listing}
    (loaded : load source = .ok listing) : ∀ e ∈ listing.entries, Canonical e := by
  intro e member
  obtain ⟨block, read, rfl⟩ := exists_block_of_load loaded member
  exact canonical_entry read

end Phrasebook.Plain

import Phrasebook.Proofs.Plain.Loaded

/-!
# Writing a plain file again

What has been loaded from a plain file is written so that phrases and cues are
read back as they were. Labels are not: they are written in escaped form, but a
label line is read as it stands. Each rewriting so puts a backslash before every
backslash, double quote and tab of a label, and leaves other labels alone.
-/

namespace Phrasebook.Plain

open Bytes Source

/-! ## Escaped labels -/

/-- The entry as it is read back under the escaped form of its label. -/
def withEscapedLabel (e : Entry) : Entry :=
  { e with label := Text.widen (Text.escape e.label) }

theorem escapeChar_widenByte (b : UInt8) :
    Text.escapeChar (Text.widenByte b) = [b] ∨
      ∃ code, Text.escapeChar (Text.widenByte b) = [backslash, code] ∧ isSpace code = false := by
  cases special : Text.needsEscape (Text.widenByte b) with
  | false => exact .inl (by rw [Text.escapeChar_of_plain special, Text.narrowChar_widenByte])
  | true =>
      rcases Text.escapeChar_of_needsEscape special with ⟨code, written, -, among⟩
      have visible : ∀ b ∈ [backslash, quote, 0x74, 0x6E], isSpace b = false :=
        Text.forall_mem_codes rfl rfl rfl rfl
      exact .inr ⟨code, written, visible code among⟩

theorem escape_widen (line : List UInt8) :
    Text.escape (Text.widen line) = line.flatMap fun b => Text.escapeChar (Text.widenByte b) := by
  rw [Text.escape, Text.toList_widen, List.flatMap_map]

theorem isLabel_escape {line : List UInt8} (label : IsLabel line) :
    IsLabel (Text.escape (Text.widen line)) := by
  rw [escape_widen]
  constructor
  case nonempty =>
    rcases List.exists_cons_of_ne_nil label.nonempty with ⟨b, rest, rfl⟩
    rw [List.flatMap_cons]
    rcases escapeChar_widenByte b with same | ⟨code, written, -⟩
    · simp [same]
    · simp [written]
  case first =>
    rcases List.exists_cons_of_ne_nil label.nonempty with ⟨b, rest, rfl⟩
    have visible : isSpace b = false := label.first
    rw [List.flatMap_cons]
    rcases escapeChar_widenByte b with same | ⟨code, written, -⟩
    · simp [same, visible]
    · rw [written]
      rfl
  case last =>
    rcases (List.eq_nil_or_concat line).resolve_left label.nonempty with ⟨rest, b, rfl⟩
    have visible : isSpace b = false := by simpa using label.last
    rw [List.concat_eq_append, List.flatMap_append, List.flatMap_singleton]
    rcases escapeChar_widenByte b with same | ⟨code, written, blank⟩
    · simp [same, visible]
    · simp [written, blank]
  case noComment =>
    have noComment := label.noComment
    rcases line with - | ⟨b, - | ⟨c, rest⟩⟩
    · simp
    · rcases escapeChar_widenByte b with same | ⟨code, written, -⟩
      · simp [same]
      · simp [written, slash, backslash]
    · rw [List.flatMap_cons, List.flatMap_cons]
      rcases escapeChar_widenByte b with same | ⟨code, written, -⟩
      · rcases escapeChar_widenByte c with same' | ⟨code, written', -⟩
        · simpa [same, same'] using noComment
        · simp [same, written', slash, backslash]
      · simp [written, slash, backslash]

theorem foldCase_ne_backslash {b : UInt8} (other : b ≠ backslash) : foldCase b ≠ backslash := by
  unfold foldCase
  split
  next letter =>
    simp only [Bool.and_eq_true, decide_eq_true_eq, UInt8.le_iff_toNat_le] at letter
    intro same
    have value := congrArg UInt8.toNat same
    rw [UInt8.toNat_add] at value
    change (b.toNat + 32) % 256 = 92 at value
    change 65 ≤ b.toNat ∧ b.toNat ≤ 90 at letter
    omega
  next => exact other

theorem unescapeFrom_fold_escape {label : String}
    (latin : ∀ c ∈ label.toList, Text.isLatin c = true) :
    Text.unescapeFrom false ((Text.escape label).map foldCase) = Label.fold label := by
  have codes : ∀ b ∈ [backslash, quote, 0x74, 0x6E], foldCase b = b :=
    Text.forall_mem_codes rfl rfl rfl rfl
  refine Text.unescapeFrom_map_escape codes (fun b other => foldCase_ne_backslash other)
    (fun _ special => Text.of_needsEscape rfl rfl rfl rfl special) ?_
  intro c member _
  rw [← Text.toLower_widenByte, Text.widenByte_narrowChar, if_pos (latin c member)]

theorem escape_label_eq_self_iff {line : List UInt8} (within : newline ∉ line) :
    Text.widen (Text.escape (Text.widen line)) = Text.widen line ↔
      ∀ c ∈ (Text.widen line).toList, c ≠ '\\' ∧ c ≠ '"' ∧ c ≠ '\t' := by
  have noNewline : ∀ c ∈ (Text.widen line).toList, c ≠ '\n' := by
    intro c member same
    rw [Text.toList_widen, same] at member
    rcases List.mem_map.mp member with ⟨b, among, value⟩
    have here : b = newline := Text.widenByte_inj.mp value
    exact within (here ▸ among)
  constructor
  · intro same c member
    have lengths := congrArg String.length same
    rw [Text.length_widen, Text.length_escape] at lengths
    have none : (Text.widen line).toList.countP Text.needsEscape = 0 := by omega
    have plain := List.countP_eq_zero.mp none c member
    simp only [Text.needsEscape, Bool.or_eq_true, decide_eq_true_eq, not_or] at plain
    exact ⟨plain.1.1.1, plain.1.1.2, plain.1.2⟩
  · intro plain
    apply widen_escape_label
    intro c member
    refine ⟨Text.isLatin_of_mem_widen member, ?_⟩
    rcases plain c member with ⟨noSlash, noQuote, noTab⟩
    simp [Text.needsEscape, noSlash, noQuote, noTab, noNewline c member]

/-! ## Loaded entries, written and read back -/

theorem Canonical.readBack_eq {e : Entry} (canonical : Canonical e) :
    readBack e = withEscapedLabel e := by
  have absent : 'ÿ' ∉ e.text.toList := fun member => (canonical.text _ member).2.1 rfl
  have same : (Text.singleByte (uncut e.text)).map spaced = e.text := by
    rw [uncut_of_not_mem absent,
      Text.singleByte_eq_self fun c member => (canonical.text c member).1]
    apply String.toList_inj.mp
    rw [String.toList_map]
    calc
      e.text.toList.map spaced = e.text.toList.map id :=
        List.map_congr_left fun c member => (canonical.text c member).2.2
      _ = e.text.toList := List.map_id _
  rw [readBack, same, canonical.spacing, if_neg absent, canonical.named]
  rfl

theorem Canonical.withEscapedLabel_eq_iff {e : Entry} (canonical : Canonical e) :
    withEscapedLabel e = e ↔ ∀ c ∈ e.label.toList, c ≠ '\\' ∧ c ≠ '"' ∧ c ≠ '\t' := by
  rcases e with ⟨label, text, cue⟩
  rcases canonical.label with ⟨line, rfl, -, within⟩
  rw [← escape_label_eq_self_iff within, withEscapedLabel, Entry.mk.injEq]
  simp

theorem load_print_canonical {entries : List Entry} (canonical : ∀ e ∈ entries, Canonical e)
    (distinct : DistinctLabels entries) :
    load (.ofBytes (print entries)) =
      .ok
        { entries := entries.map withEscapedLabel
          maxLabelLen := (entries.map fun e => (Text.escape e.label).length).max?.getD 0
          languageId := 0 } := by
  have labels : ∀ e ∈ entries, IsLabel (Text.escape e.label) := by
    intro e member
    rcases (canonical e member).label with ⟨line, same, label, -⟩
    rw [same]
    exact isLabel_escape label
  have latin : ∀ e ∈ entries, ∀ c ∈ e.label.toList, Text.isLatin c = true := by
    intro e member
    rcases (canonical e member).label with ⟨line, same, -⟩
    rw [same]
    exact fun c among => Text.isLatin_of_mem_widen among
  have apart : entries.Pairwise fun a b =>
      (Text.escape a.label).map foldCase ≠ (Text.escape b.label).map foldCase := by
    refine List.Pairwise.imp_of_mem (fun {a b} first second different => ?_) distinct
    intro same
    have folded := congrArg (Text.unescapeFrom false) same
    rw [unescapeFrom_fold_escape (latin a first), unescapeFrom_fold_escape (latin b second),
      ← Label.same_iff, different] at folded
    cases folded
  rw [load_print_eq labels apart fun e member => (canonical e member).cue,
    List.map_congr_left fun e member => (canonical e member).readBack_eq]

theorem eq_listing_of_load {source : Source} {listing : Listing}
    (loaded : load source = .ok listing) :
    DistinctLabels listing.entries ∧
      listing =
        { entries := listing.entries
          maxLabelLen := (listing.entries.map fun e => e.label.length).max?.getD 0
          languageId := 0 } := by
  rcases load_eq_ok_iff.mp loaded with ⟨blocks, -, rfl⟩
  refine ⟨distinctLabels_keepFirst _, ?_⟩
  rw [← Listing.maxLabelLen_ofBlocks]
  rfl

/--
A file that has been loaded, written and loaded again has the same phrases and
cues in the same order, each under the escaped form of its label. It is the same
listing exactly if no label has a backslash, a double quote or a tab in it.
-/
theorem load_print_loaded (data : List UInt8) (listing : Listing)
    (loaded : load (.ofBytes data) = .ok listing) :
    load (.ofBytes (print listing.entries)) =
        .ok
          { entries := listing.entries.map fun e =>
              { e with label := Text.widen (Text.escape e.label) }
            maxLabelLen := (listing.entries.map fun e => (Text.escape e.label).length).max?.getD 0
            languageId := 0 } ∧
      (load (.ofBytes (print listing.entries)) = .ok listing ↔
        ∀ e ∈ listing.entries, ∀ c ∈ e.label.toList, c ≠ '\\' ∧ c ≠ '"' ∧ c ≠ '\t') := by
  have canonical := canonical_of_load loaded
  rcases eq_listing_of_load loaded with ⟨distinct, whole⟩
  have again := load_print_canonical canonical distinct
  refine ⟨again, ?_⟩
  rw [again, Except.ok.injEq]
  constructor
  · intro same e member
    have entries := congrArg Listing.entries same
    exact (canonical e member).withEscapedLabel_eq_iff.mp
      (List.map_inj_left.mp (entries.trans (List.map_id _).symm) e member)
  · intro plain
    have each : ∀ e ∈ listing.entries, withEscapedLabel e = e :=
      fun e member => (canonical e member).withEscapedLabel_eq_iff.mpr (plain e member)
    have entries : listing.entries.map withEscapedLabel = listing.entries :=
      (List.map_congr_left each).trans (List.map_id _)
    have lengths : (listing.entries.map fun e => (Text.escape e.label).length) =
        listing.entries.map fun e => e.label.length := by
      refine List.map_congr_left fun e member => ?_
      have label : Text.widen (Text.escape e.label) = e.label :=
        congrArg Entry.label (each e member)
      rw [← Text.length_widen, label]
    rw [entries, lengths]
    exact whole.symm

def backslashFile : List UInt8 :=
  [0x61, backslash, 0x62] ++ newline :: ([] ++ quote :: [0x74] ++ quote :: [] ++ newline ::
    ([0x45, 0x4E, 0x44] ++ newline :: []))

theorem load_backslashFile :
    load (.ofBytes backslashFile) =
      .ok { entries := [{ label := "a\\b", text := "t" }], maxLabelLen := 3, languageId := 0 } := by
  have quoted : BodyItem ([] ++ quote :: [0x74] ++ quote :: [] ++ newline ::
      ([0x45, 0x4E, 0x44] ++ newline :: [])) (some { text := [0x74], behind := [] }) _ :=
    .quoted _ (fun _ member => absurd member List.not_mem_nil) (by decide) (by decide)
  have form : FileForm backslashFile
      [{ label := [0x61, backslash, 0x62], value := some { text := [0x74], behind := [] } }] :=
    .block (.ended (by decide)) (by decide) rfl
      (.item quoted (.ending (.ended (by decide)) rfl)) .nil
  rcases readBlocks_of_form form (by decide) with ⟨blocks, read, means⟩
  refine load_eq_ok_iff.mpr ⟨blocks, read, ?_⟩
  rw [means]
  cbv

/-- The backslash of the label is doubled. -/
theorem load_print_loaded_backslash :
    load (.ofBytes backslashFile) =
        .ok { entries := [{ label := "a\\b", text := "t" }], maxLabelLen := 3, languageId := 0 } ∧
      load (.ofBytes (print [{ label := "a\\b", text := "t" }])) =
        .ok { entries := [{ label := "a\\\\b", text := "t" }], maxLabelLen := 4,
              languageId := 0 } := by
  refine ⟨load_backslashFile, (load_print_loaded _ _ load_backslashFile).1.trans ?_⟩
  cbv

/-- Not every file that loads is the same when it has been written again. -/
theorem not_load_print_eq :
    ¬∀ (data : List UInt8) (listing : Listing), load (.ofBytes data) = .ok listing →
      load (.ofBytes (print listing.entries)) = .ok listing := by
  intro lossless
  have same := lossless _ _ load_backslashFile
  rw [load_print_canonical (canonical_of_load load_backslashFile)
    (eq_listing_of_load load_backslashFile).1, Except.ok.injEq] at same
  exact absurd (congrArg Listing.maxLabelLen same) (by decide)

end Phrasebook.Plain

import Phrasebook.Proofs.Compiled.Rewriting
import Phrasebook.Proofs.Plain.RoundTrip

/-!
# Through a plain file and back

A compiled file may hold phrases that a plain file cannot. U+00FF is written as
the byte that ends quoted text, and white space other than tabs and newlines is
read as a space: these four characters have no escape. Entries that are made of
single bytes otherwise come through unchanged.
-/

namespace Phrasebook.Conversion

open Bytes

/-- Printable ASCII, but no blank and nothing that is escaped. -/
def isLabelChar (c : Char) : Bool := 0x21 ≤ c.toNat && c.toNat ≤ 0x7E && c ≠ '\\' && c ≠ '"'

/-- An entry of a compiled file that loses nothing by what is documented of plain files. -/
structure Convertible (e : Entry) : Prop where
  label : e.label ≠ ""
  plain : ∀ c ∈ e.label.toList, isLabelChar c = true
  noComment : ¬['/', '/'] <+: e.label.toList
  text : ∀ c ∈ e.text.toList, Text.isLatin c = true
  cue : ∀ c ∈ e.cue.toList, Text.isCueChar c = true
  noDigit : e.cue.toList.getLast?.any Char.isDigit = false

/-- Has no form of its own between the quotes of a plain file. -/
def isUnwritable (c : Char) : Bool := c = 'ÿ' || c = '\x0B' || c = '\x0C' || c = '\r'

/-- Entries written as a plain file and loaded, then written as a compiled file and loaded. -/
def throughPlain (entries : List Entry) (languageId : UInt32) : Except LoadError Listing := do
  let plain ← Plain.load (.ofBytes (Plain.print entries))
  Compiled.load (.ofBytes (Compiled.print plain.entries languageId))

/-- What comes back of an entry. -/
def comingBack (e : Entry) : Entry where
  label := e.label
  text := Text.squeeze ((Plain.uncut e.text).map Plain.spaced)
  cue := if 'ÿ' ∈ e.text.toList then "" else e.cue

/-! ## Labels -/

theorem toNat_of_isLabelChar {c : Char} (plain : isLabelChar c = true) :
    0x21 ≤ c.toNat ∧ c.toNat ≤ 0x7E := by
  simp only [isLabelChar, Bool.and_eq_true, decide_eq_true_eq] at plain
  exact plain.1.1

theorem isLatin_of_isLabelChar {c : Char} (plain : isLabelChar c = true) :
    Text.isLatin c = true := by
  have bounds := toNat_of_isLabelChar plain
  simp only [Text.isLatin, decide_eq_true_eq]
  omega

theorem needsEscape_of_isLabelChar {c : Char} (plain : isLabelChar c = true) :
    Text.needsEscape c = false := by
  have bounds := toNat_of_isLabelChar plain
  have noTab : c ≠ '\t' := by
    rintro rfl
    exact absurd bounds.1 (by decide)
  have noNewline : c ≠ '\n' := by
    rintro rfl
    exact absurd bounds.1 (by decide)
  simp only [isLabelChar, Bool.and_eq_true, decide_eq_true_eq] at plain
  simp [Text.needsEscape, plain.1.2, plain.2, noTab, noNewline]

theorem toNat_le_of_isSpace {b : UInt8} (blank : isSpace b = true) : b.toNat ≤ 0x20 := by
  simp only [isSpace, Bool.or_eq_true, decide_eq_true_eq] at blank
  rcases blank with ((((rfl | rfl) | rfl) | rfl) | rfl) | rfl <;> decide

theorem isSpace_of_isLabelChar {c : Char} (plain : isLabelChar c = true) :
    isSpace (Text.narrowChar c) = false := by
  have bounds := toNat_of_isLabelChar plain
  have value : (Text.narrowChar c).toNat = c.toNat := Text.toNat_narrowChar (by omega)
  rw [← Bool.not_eq_true]
  intro blank
  have low := toNat_le_of_isSpace blank
  omega

section Entries

variable {e : Entry} (convertible : Convertible e)

include convertible

theorem isLatin_label : ∀ c ∈ e.label.toList, Text.isLatin c = true :=
  fun c member => isLatin_of_isLabelChar (convertible.plain c member)

theorem escape_label : Text.escape e.label = Text.narrow e.label :=
  Text.escape_eq_narrow fun c member => needsEscape_of_isLabelChar (convertible.plain c member)

theorem widen_escape_label : Text.widen (Text.escape e.label) = e.label := by
  rw [escape_label convertible, Text.widen_narrow,
    Text.singleByte_eq_self (isLatin_label convertible)]

theorem isLabel_label : Plain.IsLabel (Text.escape e.label) := by
  have visible : ∀ b ∈ Text.narrow e.label, isSpace b = false := by
    intro b member
    obtain ⟨c, among, rfl⟩ := List.mem_map.mp member
    exact isSpace_of_isLabelChar (convertible.plain c among)
  have back := congrArg String.toList (widen_escape_label convertible)
  rw [Text.toList_widen] at back
  rw [escape_label convertible] at back ⊢
  refine Plain.isLabel_of_visible (by simpa [Text.narrow] using convertible.label) visible ?_
  intro comment
  have start := comment.map Text.widenByte
  rw [back] at start
  exact convertible.noComment start

/-! ## What comes back -/

theorem readBack_eq : Plain.readBack e = comingBack e := by
  have latin : ∀ c ∈ (Plain.uncut e.text).toList, Text.isLatin c = true := by
    intro c member
    rw [Plain.uncut, String.toList_ofList] at member
    exact convertible.text c ((List.takeWhile_sublist _).subset member)
  have named : Plain.namedCue e.cue = e.cue := by
    rw [Plain.namedCue, convertible.noDigit, if_neg Bool.false_ne_true]
  rw [Plain.readBack, comingBack, widen_escape_label convertible, Text.singleByte_eq_self latin,
    named]

end Entries

theorem mem_text_comingBack {e : Entry} {c : Char} (member : c ∈ (comingBack e).text.toList) :
    (c = ' ' ∨ c ∈ e.text.toList) ∧ isUnwritable c = false := by
  have inside := Text.mem_of_mem_squeeze member
  rw [String.toList_map, Plain.uncut, String.toList_ofList] at inside
  obtain ⟨d, taken, rfl⟩ := List.mem_map.mp inside
  have among : d ∈ e.text.toList := (List.takeWhile_sublist _).subset taken
  have uncut : d ≠ 'ÿ' := by simpa using List.mem_takeWhile_imp taken
  unfold Plain.spaced
  split
  next => exact ⟨.inl rfl, by decide⟩
  next kept =>
    refine ⟨.inr among, ?_⟩
    simpa [isUnwritable, uncut] using kept

theorem comingBack_eq_self_iff {e : Entry} (spacing : Text.squeeze e.text = e.text) :
    comingBack e = e ↔ ∀ c ∈ e.text.toList, isUnwritable c = false := by
  constructor
  · intro same c member
    rw [← same] at member
    exact (mem_text_comingBack member).2
  · intro writable
    have absent : 'ÿ' ∉ e.text.toList := by
      intro member
      exact absurd (writable _ member) (by decide)
    have plain : e.text.map Plain.spaced = e.text := by
      apply String.toList_inj.mp
      rw [String.toList_map]
      calc
        e.text.toList.map Plain.spaced = e.text.toList.map id := by
          refine List.map_congr_left fun c member => ?_
          have kept := writable c member
          simp only [isUnwritable, Bool.or_eq_false_iff, decide_eq_false_iff_not] at kept
          simp [Plain.spaced, kept]
        _ = e.text.toList := List.map_id _
    rw [comingBack, Plain.uncut_of_not_mem absent, plain, spacing, if_neg absent]

/-! ## The compiled file -/

theorem length_charUnits_spaced (c : Char) :
    (Text.charUnits (Plain.spaced c)).length = (Text.charUnits c).length := by
  unfold Plain.spaced
  split
  next blank =>
    simp only [Bool.or_eq_true, decide_eq_true_eq] at blank
    rcases blank with (rfl | rfl) | rfl <;> rfl
  next => rfl

theorem length_encodeUnits_comingBack_le (e : Entry) :
    (Text.encodeUnits (comingBack e).text).length ≤ (Text.encodeUnits e.text).length := by
  have squeezed :=
    Compiled.length_encodeUnits_squeeze_le ((Plain.uncut e.text).map Plain.spaced)
  have spaced : (Text.encodeUnits ((Plain.uncut e.text).map Plain.spaced)).length =
      (Text.encodeUnits (Plain.uncut e.text)).length := by
    simp only [Text.encodeUnits, String.toList_map, List.flatMap_map, List.length_flatMap,
      length_charUnits_spaced]
  have cut : (Text.encodeUnits (Plain.uncut e.text)).length ≤
      (Text.encodeUnits e.text).length := by
    rw [Plain.uncut, Text.encodeUnits, Text.encodeUnits, String.toList_ofList]
    exact ((List.takeWhile_sublist _).flatMap Text.charUnits).length_le
  exact Nat.le_trans squeezed (spaced.trans_le cut)

theorem storable_comingBack {e : Entry} (storable : Compiled.Storable e) :
    Compiled.Storable (comingBack e) := by
  obtain ⟨label, text, cue⟩ := storable
  refine ⟨label, Nat.lt_of_le_of_lt (length_encodeUnits_comingBack_le e) text, ?_⟩
  show (if 'ÿ' ∈ e.text.toList then "" else e.cue).length < _
  split
  · exact (by decide : "".length < UInt32.size)
  · exact cue

theorem settled_comingBack {e : Entry} (settled : Compiled.Settled e) :
    Compiled.Settled (comingBack e) where
  label := settled.label
  cue := by
    intro c member
    change c ∈ (if 'ÿ' ∈ e.text.toList then "" else e.cue).toList at member
    split at member
    · cases member
    · exact settled.cue c member
  spacing := Text.squeeze_squeeze _
  storable := by
    intro c member
    rcases (mem_text_comingBack member).1 with rfl | among
    · rfl
    · exact settled.storable c among

theorem distinctLabels_comingBack {entries : List Entry} (distinct : DistinctLabels entries) :
    DistinctLabels (entries.map comingBack) :=
  List.pairwise_map.mpr distinct

theorem distinct_escape {entries : List Entry} (convertible : ∀ e ∈ entries, Convertible e)
    (distinct : DistinctLabels entries) :
    entries.Pairwise fun a b =>
      (Text.escape a.label).map foldCase ≠ (Text.escape b.label).map foldCase := by
  refine List.Pairwise.imp_of_mem ?_ distinct
  intro a b first second apart same
  have level := Text.same_widen_iff.mpr same
  rw [widen_escape_label (convertible a first), widen_escape_label (convertible b second),
    apart] at level
  cases level

variable {source : Bytes.Source} {listing : Listing}

theorem throughPlain_of_load (loaded : Compiled.load source = .ok listing)
    (convertible : ∀ e ∈ listing.entries, Convertible e) (languageId : UInt32) :
    throughPlain listing.entries languageId =
      .ok
        { entries := listing.entries.map comingBack
          maxLabelLen := (listing.entries.map fun e => e.label.length).max?.getD 0
          languageId } := by
  have distinct := Compiled.distinctLabels_of_load loaded
  have back : listing.entries.map Plain.readBack = listing.entries.map comingBack :=
    List.map_congr_left fun e member => readBack_eq (convertible e member)
  have plain := Plain.load_print_eq (fun e member => isLabel_label (convertible e member))
    (distinct_escape convertible distinct) fun e member => (convertible e member).cue
  have storable : ∀ e ∈ listing.entries.map comingBack, Compiled.Storable e :=
    List.forall_mem_map.mpr fun e member =>
      storable_comingBack (Compiled.storable_of_load loaded e member)
  have settled : ∀ e ∈ listing.entries.map comingBack, Compiled.Settled e :=
    List.forall_mem_map.mpr fun e member =>
      settled_comingBack (Compiled.settled_of_load loaded e member)
  have labels : ((listing.entries.map comingBack).map fun e => e.label.length) =
      listing.entries.map fun e => e.label.length := by
    rw [List.map_map]
    rfl
  rw [throughPlain, plain, back]
  show Compiled.load (.ofBytes (Compiled.print (listing.entries.map comingBack) languageId)) = _
  rw [Compiled.load_print_eq storable,
    Compiled.unrepeated_readBack settled (distinctLabels_comingBack distinct), labels]

theorem map_comingBack_eq_self_iff (loaded : Compiled.load source = .ok listing) :
    listing.entries.map comingBack = listing.entries ↔
      ∀ e ∈ listing.entries, ∀ c ∈ e.text.toList, isUnwritable c = false := by
  have settled := Compiled.settled_of_load loaded
  constructor
  · intro same e member
    have kept := List.map_inj_left.mp (same.trans (List.map_id _).symm) e member
    exact (comingBack_eq_self_iff (settled e member).spacing).mp kept
  · intro writable
    calc
      listing.entries.map comingBack = listing.entries.map id :=
        List.map_congr_left fun e member =>
          (comingBack_eq_self_iff (settled e member).spacing).mpr (writable e member)
      _ = listing.entries := List.map_id _

/--
Every entry of a compiled file comes back through a plain file under its label
and in its place. The entries are the same exactly if no phrase has one of the
four characters that a plain file cannot hold. Otherwise a phrase is cut at
U+00FF and loses its cue, and the other three are spaces.
-/
theorem throughPlain_loaded (source : Bytes.Source) (listing : Listing) (languageId : UInt32)
    (loaded : Compiled.load source = .ok listing)
    (convertible : ∀ e ∈ listing.entries, Convertible e) :
    throughPlain listing.entries languageId =
        .ok
          { entries := listing.entries.map fun e =>
              { label := e.label
                text := Text.squeeze ((Plain.uncut e.text).map Plain.spaced)
                cue := if 'ÿ' ∈ e.text.toList then "" else e.cue }
            maxLabelLen := (listing.entries.map fun e => e.label.length).max?.getD 0
            languageId } ∧
      ((throughPlain listing.entries languageId).map Listing.entries = .ok listing.entries ↔
        ∀ e ∈ listing.entries, ∀ c ∈ e.text.toList, isUnwritable c = false) := by
  have back := throughPlain_of_load loaded convertible languageId
  refine ⟨back, ?_⟩
  rw [back, ← map_comingBack_eq_self_iff loaded]
  exact ⟨Except.ok.inj, congrArg Except.ok⟩

/-! ## A phrase that is cut -/

/-- A phrase with U+00FF in it and a cue, and one that can be written. -/
def cutEntries : List Entry :=
  [{ label := "A", text := "aÿb", cue := "c" },
    { label := "B", text := "\"é\" \\\n// END", cue := "d" }]

theorem load_cutEntries :
    Compiled.load (.ofBytes (Compiled.print cutEntries 0)) =
      .ok { entries := cutEntries, maxLabelLen := 1, languageId := 0 } := by
  rw [Compiled.load_print_eq ?storable]
  · cbv
  case storable =>
    simp only [cutEntries, List.forall_mem_cons, Compiled.Storable]
    decide

theorem convertible_cutEntries : ∀ e ∈ cutEntries, Convertible e := by
  intro e member
  simp only [cutEntries, List.mem_cons, List.not_mem_nil, or_false] at member
  rcases member with rfl | rfl <;>
    exact ⟨by decide, List.all_eq_true.mp rfl, by decide, List.all_eq_true.mp rfl,
      List.all_eq_true.mp rfl, rfl⟩

/-- The first phrase is cut and loses its cue; the second comes back. -/
theorem throughPlain_loaded_cut :
    Compiled.load (.ofBytes (Compiled.print cutEntries 0)) =
        .ok { entries := cutEntries, maxLabelLen := 1, languageId := 0 } ∧
      (∀ e ∈ cutEntries, Convertible e) ∧
      throughPlain cutEntries 7 =
        .ok
          { entries :=
              [{ label := "A", text := "a" },
                { label := "B", text := "\"é\" \\\n// END", cue := "d" }]
            maxLabelLen := 1
            languageId := 7 } := by
  refine ⟨load_cutEntries, convertible_cutEntries, ?_⟩
  have back := throughPlain_loaded _ _ 7 load_cutEntries convertible_cutEntries
  refine back.1.trans ?_
  cbv

/-- Not every phrase in single bytes comes back through a plain file. -/
theorem not_throughPlain_eq :
    ¬∀ (source : Bytes.Source) (listing : Listing) (languageId : UInt32),
      Compiled.load source = .ok listing → (∀ e ∈ listing.entries, Convertible e) →
      (throughPlain listing.entries languageId).map Listing.entries = .ok listing.entries := by
  intro lossless
  have same := lossless _ _ 0 load_cutEntries convertible_cutEntries
  rw [throughPlain_of_load load_cutEntries convertible_cutEntries] at same
  have entries := (map_comingBack_eq_self_iff load_cutEntries).mp (Except.ok.inj same)
  have cut : isUnwritable 'ÿ' = false :=
    entries { label := "A", text := "aÿb", cue := "c" } List.mem_cons_self 'ÿ' (by decide)
  cases cut

end Phrasebook.Conversion

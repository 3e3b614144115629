import Phrasebook.Proofs.Plain.Loaded

/-!
# The normal form of loaded entries

`Canonical` says how an entry comes out of the readers of a plain file. Said of its
characters, it is a normal form: a label that is a line of its own, text that is
spaced as it is displayed, and a cue that no digit ends. Every entry of every plain
file has it, whatever byte ended its text and however often its label came.
-/

namespace Phrasebook.Text

open Bytes

/-- White space: space, tab, newline, vertical tab, form feed, carriage return. -/
def isSpaceChar (c : Char) : Bool := [' ', '\t', '\n', '\x0B', '\x0C', '\r'].contains c

theorem isSpaceChar_widenByte (b : UInt8) : isSpaceChar (widenByte b) = isSpace b := by
  have same (a : UInt8) : (widenByte b == widenByte a) = decide (b = a) := by
    rw [Bool.eq_iff_iff, beq_iff_eq, decide_eq_true_iff, widenByte_inj]
  have each : isSpaceChar (widenByte b) =
      [space, tab, newline, 0x0B, 0x0C, 0x0D].any fun a => widenByte b == widenByte a := rfl
  rw [each]
  simp [same, isSpace, Bool.or_assoc]

end Phrasebook.Text

namespace Phrasebook.Plain

open Bytes Source

/-- An entry as every plain file gives it. -/
structure NormalForm (e : Entry) : Prop where
  nonempty : e.label ≠ ""
  label : ∀ c ∈ e.label.toList, Text.isLatin c = true ∧ c ≠ '\n'
  first : e.label.toList.head?.any Text.isSpaceChar = false
  last : e.label.toList.getLast?.any Text.isSpaceChar = false
  noComment : ¬['/', '/'] <+: e.label.toList
  text : ∀ c ∈ e.text.toList, Text.isLatin c = true ∧ c ∉ ['\x0B', '\x0C', '\r', 'ÿ']
  squeezed : Text.squeeze e.text = e.text
  wellSpaced : Text.WellSpaced e.text.toList
  cue : ∀ c ∈ e.cue.toList, Text.isCueChar c = true
  noDigit : e.cue.toList.getLast?.any Char.isDigit = false

/-! ## Labels -/

section Labels

variable {line : List UInt8} (label : IsLabel line)

include label

theorem IsLabel.widen_ne_empty : Text.widen line ≠ "" := by
  intro empty
  have nothing := congrArg String.toList empty
  rw [Text.toList_widen] at nothing
  exact label.nonempty (List.map_eq_nil_iff.mp nothing)

theorem IsLabel.edges_widen :
    (Text.widen line).toList.head?.any Text.isSpaceChar = false ∧
      (Text.widen line).toList.getLast?.any Text.isSpaceChar = false := by
  rw [Text.toList_widen, List.head?_map, List.getLast?_map, Option.any_map, Option.any_map]
  simp only [Text.isSpaceChar_widenByte]
  exact ⟨label.first, label.last⟩

theorem IsLabel.noComment_widen : ¬['/', '/'] <+: (Text.widen line).toList := by
  intro comment
  have bytes := comment.map Text.narrowChar
  have narrowed : (Text.widen line).toList.map Text.narrowChar = line := Text.narrow_widen line
  rw [narrowed] at bytes
  exact label.noComment bytes

end Labels

theorem ne_newline_of_mem_widen {line : List UInt8} (within : newline ∉ line) {c : Char}
    (member : c ∈ (Text.widen line).toList) : c ≠ '\n' := by
  rintro rfl
  rw [Text.toList_widen] at member
  obtain ⟨b, among, same⟩ := List.mem_map.mp member
  have here : b = newline := Text.widenByte_inj.mp same
  exact within (here ▸ among)

/-! ## Texts and cues -/

theorem not_mem_of_spaced_eq {c : Char} (other : c ≠ 'ÿ') (same : spaced c = c) :
    c ∉ ['\x0B', '\x0C', '\r', 'ÿ'] := by
  intro member
  simp only [List.mem_cons, List.not_mem_nil, or_false] at member
  rcases member with rfl | rfl | rfl | rfl
  · cases same
  · cases same
  · cases same
  · exact other rfl

theorem getLast?_of_namedCue_eq {cue : String} (same : namedCue cue = cue) :
    cue.toList.getLast?.any Char.isDigit = false := by
  cases digit : cue.toList.getLast?.any Char.isDigit with
  | false => rfl
  | true =>
      rw [namedCue, if_pos digit] at same
      have lengths := congrArg String.length same
      rw [String.length_append] at lengths
      exact absurd lengths (by simp)

theorem Canonical.normalForm {e : Entry} (canonical : Canonical e) : NormalForm e := by
  obtain ⟨label, text, cue⟩ := e
  obtain ⟨line, rfl, isLabel, within⟩ := canonical.label
  obtain ⟨first, last⟩ := isLabel.edges_widen
  exact
    { nonempty := isLabel.widen_ne_empty
      label := fun c member =>
        ⟨Text.isLatin_of_mem_widen member, ne_newline_of_mem_widen within member⟩
      first := first
      last := last
      noComment := isLabel.noComment_widen
      text := fun c member =>
        have kept := canonical.text c member
        ⟨kept.1, not_mem_of_spaced_eq kept.2.1 kept.2.2⟩
      squeezed := canonical.spacing
      wellSpaced := (Text.squeeze_eq_self_iff _).mp canonical.spacing
      cue := canonical.cue
      noDigit := getLast?_of_namedCue_eq canonical.named }

/-- Whatever bytes a plain file is made of, its entries have the normal form. -/
theorem normalForm_of_load {source : Source} {listing : Listing}
    (loaded : load source = .ok listing) : ∀ e ∈ listing.entries, NormalForm e := by
  intro e member
  exact (canonical_of_load loaded e member).normalForm

def repeatedBlock : List UInt8 :=
  [0x62] ++ newline :: [quote, 0x76, quote, newline, 0x45, 0x4E, 0x44]

def cuedBlock : List UInt8 :=
  [0x42, 0x0D] ++ newline ::
    ([quote, 0x74, 0x0C, 0x75, quote, equals, 0x63, 0x39, newline, 0x65, 0x6E, 0x64, newline] ++
      repeatedBlock)

/-- The sentinel cuts the first text, which runs over two lines; the last label comes again. -/
def mixedFile : List UInt8 :=
  [0xE9] ++ newline ::
    ([quote, 0x61, space, backslash, 0x6E, newline, 0x0B, 0x62, sentinel, newline, 0x45, 0x4E, 0x44,
      newline] ++ cuedBlock)

theorem load_mixedFile :
    load (.ofBytes mixedFile) =
      .ok
        { entries :=
            [{ label := "é", text := "a\nb" }, { label := "B", text := "t u", cue := "c9e" }]
          maxLabelLen := 1
          languageId := 0 } := by
  have last : readBlocks (.ofBytes repeatedBlock) =
      .ok [{ label := [0x62], value := some { text := [0x76], closed := true } }] :=
    readBlocks_block (readLine_of_firstLine (.ended (by decide))) rfl (by decide) rfl (by cbv)
      readBlocks_nil
  have cued : readBodyLine (.ofBytes
      ([quote, 0x74, 0x0C, 0x75, quote, equals, 0x63, 0x39, newline, 0x65, 0x6E, 0x64, newline] ++
        repeatedBlock)) =
      .ok (some (.quoted { text := [0x74, space, 0x75], cue := [0x63, 0x39, 0x65], closed := true },
        .ofBytes ([0x65, 0x6E, 0x64, newline] ++ repeatedBlock))) := by cbv
  have second : readBlocks (.ofBytes cuedBlock) = .ok ({ label := [0x42], value := some _ } :: _) :=
    readBlocks_block (readLine_of_firstLine (.ended (by decide))) rfl (by decide) rfl
      ((readBody_quoted cued none).trans (readBody_ending (by cbv) _)) last
  have cut : readBodyLine (.ofBytes
      ([quote, 0x61, space, backslash, 0x6E, newline, 0x0B, 0x62, sentinel, newline, 0x45, 0x4E,
        0x44, newline] ++ cuedBlock)) =
      .ok (some (.quoted { text := [0x61, space, backslash, 0x6E, space, space, 0x62] },
        .ofBytes ([newline, 0x45, 0x4E, 0x44, newline] ++ cuedBlock))) := by cbv
  have read : readBlocks (.ofBytes mixedFile) = .ok ({ label := [0xE9], value := some _ } :: _) :=
    readBlocks_block (readLine_of_firstLine (.ended (by decide))) rfl (by decide) rfl
      ((readBody_quoted cut none).trans (by cbv)) second
  exact load_eq_ok_iff.mpr ⟨_, read, by cbv⟩

theorem normalForm_of_load_mixedFile :
    NormalForm { label := "é", text := "a\nb" } ∧
      NormalForm { label := "B", text := "t u", cue := "c9e" } := by
  have each := normalForm_of_load load_mixedFile
  exact ⟨each _ List.mem_cons_self, each _ (.tail _ List.mem_cons_self)⟩

end Phrasebook.Plain

import Phrasebook.Proofs.Compiled.Front
import Phrasebook.Proofs.Compiled.RoundTrip

/-!
# Compiled files that are cut short

The front of a compiled file loads as fewer entries, never as other ones. A cut
within the header or within a block is noticed, unless it leaves less than the
mark of the block; everywhere else the front is a file of its own.
-/

namespace Phrasebook.Compiled

open Bytes

/-! ## Parts that are cut -/

/-- A reader of a form does not read a part of it. -/
theorem Reads.take {reader : Reader α} {form : Form α} (reads : Reads reader form)
    (passed : Extends reader) {used : List UInt8} {value : α} (formed : form used value) {n : Nat}
    (short : n < used.length) : ∃ e, reader (.ofBytes (used.take n)) = .error e := by
  have whole : reader (.ofBytes used) = .ok (value, .ofBytes []) :=
    (reads _ _ _).mpr ⟨used, formed, by simp [Source.ofBytes, Source.prepend]⟩
  have foretold := passed (.ofBytes (used.take n)) (.ofBytes (used.drop n))
  rw [Source.ofBytes_take_followedBy, whole] at foretold
  cases front : reader (.ofBytes (used.take n)) with
  | error e => exact ⟨e, rfl⟩
  | ok found =>
      rw [front, foretells_ok_iff] at foretold
      have rest := congrArg Source.pending (Prod.mk.inj (Except.ok.inj foretold.2)).2
      have nothing : used.drop n = [] := by
        have both : found.2.pending ++ used.drop n = [] := rest.symm
        exact (List.append_eq_nil_iff.mp both).2
      have length := congrArg List.length nothing
      rw [List.length_drop, List.length_nil] at length
      omega

theorem readBlocks_take {used : List UInt8} {block : Block} (form : BlockForm used block) {n : Nat}
    (marked : markSize ≤ n) (short : n < used.length) :
    ∃ e, readBlocks (.ofBytes (used.take n)) = .error e := by
  obtain ⟨body, rfl⟩ := form.starts
  have split : (labelMark ++ body).take n = labelMark ++ body.take (n - markSize) := by
    rw [List.take_append, List.take_of_length_le (show labelMark.length ≤ n from marked)]
    rfl
  have inside : n - markSize < body.length := by
    rw [List.length_append] at short
    have size : labelMark.length = markSize := rfl
    omega
  obtain ⟨e, failed⟩ := reads_readBlockBody.take extends_readBlockBody form inside
  have mark : readMark (.ofBytes ((labelMark ++ body).take n)) =
      .ok (some labelMark, .ofBytes (body.take (n - markSize))) := by
    rw [split]
    exact readMark_eq_some_iff.mpr ⟨rfl, rfl⟩
  exact ⟨e, readBlocks_failed mark failed⟩

/-! ## Cuts -/

/-- A cut there leaves the mark of a block, or more of it, but not all of it. -/
def CutsBlock (data : List UInt8) (n : Nat) : Prop :=
  ∃ (header : Header) (before used rest : List UInt8) (blocks : List Block) (block : Block),
    data = header.toBytes ++ before ++ used ++ rest ∧
      Sequence BlockForm before blocks ∧ BlockForm used block ∧
      headerSize + before.length + markSize ≤ n ∧
      n < headerSize + before.length + used.length

theorem length_toBytes (header : Header) : header.toBytes.length = headerSize := rfl

theorem readHeader_toBytes (header : Header) (source : Source) :
    readHeader (source.prepend header.toBytes) = .ok (header, source) :=
  (reads_readHeader _ _ _).mpr ⟨_, rfl, rfl⟩

theorem load_error_of_cutsBlock {data : List UInt8} {n : Nat} (cuts : CutsBlock data n) :
    ∃ e, load (.ofBytes (data.take n)) = .error e := by
  obtain ⟨header, before, used, rest, blocks, block, rfl, each, form, marked, short⟩ := cuts
  have length := length_toBytes header
  have front : (header.toBytes ++ before ++ used ++ rest).take n =
      header.toBytes ++ (before ++ used.take (n - headerSize - before.length)) := by
    rw [List.append_assoc, List.append_assoc, List.take_append,
      List.take_of_length_le (show header.toBytes.length ≤ n by omega), length, List.take_append,
      List.take_of_length_le (show before.length ≤ n - headerSize by omega),
      List.take_append_of_le_length (by omega)]
  obtain ⟨e, failed⟩ := readBlocks_take (n := n - headerSize - before.length) form (by omega)
    (by omega)
  have source : Source.ofBytes
      (header.toBytes ++ (before ++ used.take (n - headerSize - before.length))) =
      ((Source.ofBytes (used.take (n - headerSize - before.length))).prepend before).prepend
        header.toBytes := rfl
  refine ⟨e, ?_⟩
  rw [front, source, load_eq_bind, readHeader_toBytes]
  show (readBlocks _).bind _ = _
  rw [readBlocks_prepend each, failed]
  rfl

/-- Blocks and a tail that are cut elsewhere are blocks and a tail again. -/
theorem exists_layout_take {body tail : List UInt8} {blocks : List Block}
    (each : Sequence BlockForm body blocks)
    (stop : tail.length < markSize ∨ tail.take markSize ≠ labelMark) {n : Nat}
    (whole : ∀ (before used rest : List UInt8) (earlier : List Block) (block : Block),
      body = before ++ used ++ rest → Sequence BlockForm before earlier → BlockForm used block →
      before.length + markSize ≤ n → before.length + used.length ≤ n) :
    ∃ front rest earlier, (body ++ tail).take n = front ++ rest ∧
      Sequence BlockForm front earlier ∧
      (rest.length < markSize ∨ rest.take markSize ≠ labelMark) := by
  induction each generalizing n with
  | nil =>
      refine ⟨[], tail.take n, [], rfl, .nil, ?_⟩
      by_cases few : n < markSize
      · left
        rw [List.length_take]
        omega
      · rw [List.take_take, Nat.min_eq_left (by omega), List.length_take]
        exact stop.imp (by omega) id
  | @cons head more block others form _ ih =>
      by_cases few : n < markSize
      · refine ⟨[], (head ++ more ++ tail).take n, [], rfl, .nil, .inl ?_⟩
        rw [List.length_take]
        omega
      · have kept : head.length ≤ n := by
          simpa using whole [] head more [] block rfl .nil form (by simpa using few)
        obtain ⟨front, rest, earlier, split, formed, ends⟩ := ih (n := n - head.length) (by
          intro before used rest earlier other split formed part marked
          have later := whole (head ++ before) used rest (block :: earlier) other
            (by simp [split]) (.cons form formed) part
          rw [List.length_append] at later
          omega)
        refine ⟨head ++ front, rest, block :: earlier, ?_, .cons form formed, ends⟩
        rw [List.append_assoc, List.take_append, List.take_of_length_le kept, split,
          List.append_assoc]

/-- Which bytes load at all; what is loaded from them does not matter for a cut. -/
theorem loads_iff_exists_blocks (data : List UInt8) :
    (∃ listing, load (.ofBytes data) = .ok listing) ↔
      ∃ (header : Header) (body : List UInt8) (blocks : List Block) (tail : List UInt8),
        data = header.toBytes ++ body ++ tail ∧ Sequence BlockForm body blocks ∧
          (tail.length < markSize ∨ tail.take markSize ≠ labelMark) := by
  constructor
  · rintro ⟨listing, loaded⟩
    obtain ⟨header, body, blocks, ⟨tail, fault⟩, whole, each, stop, -⟩ :=
      (load_eq_ok_iff _ _).mp loaded
    obtain ⟨rfl, rfl⟩ : data = header.toBytes ++ body ++ tail ∧ none = fault := by
      simpa [Source.ofBytes, Source.prepend] using whole
    exact ⟨header, body, blocks, tail, rfl, each, (noBlock_ofBytes tail).mp stop⟩
  · rintro ⟨header, body, blocks, tail, rfl, each, stop⟩
    exact ⟨_, (load_eq_ok_iff _ _).mpr
      ⟨header, body, blocks, .ofBytes tail, rfl, each, (noBlock_ofBytes tail).mpr stop, rfl⟩⟩

theorem load_take_ok_iff {data : List UInt8} {listing : Listing}
    (loaded : load (.ofBytes data) = .ok listing) (n : Nat) :
    (∃ front, load (.ofBytes (data.take n)) = .ok front) ↔ headerSize ≤ n ∧ ¬CutsBlock data n := by
  constructor
  · intro accepted
    constructor
    · obtain ⟨header, body, blocks, tail, split, -⟩ := (loads_iff_exists_blocks _).mp accepted
      have length := congrArg List.length split
      simp only [List.length_append, List.length_take, length_toBytes] at length
      omega
    · intro cuts
      obtain ⟨front, read⟩ := accepted
      obtain ⟨e, failed⟩ := load_error_of_cutsBlock cuts
      rw [read] at failed
      cases failed
  · rintro ⟨enough, whole⟩
    obtain ⟨header, body, blocks, tail, rfl, each, stop⟩ :=
      (loads_iff_exists_blocks _).mp ⟨listing, loaded⟩
    have length := length_toBytes header
    obtain ⟨front, rest, earlier, split, formed, ends⟩ :=
      exists_layout_take (n := n - headerSize) each stop (by
        intro before used rest earlier block split formed part marked
        by_contra short
        exact whole ⟨header, before, used, rest ++ tail, earlier, block, by simp [split], formed,
          part, by omega, by omega⟩)
    have layout : (header.toBytes ++ body ++ tail).take n = header.toBytes ++ front ++ rest := by
      rw [List.append_assoc, List.take_append,
        List.take_of_length_le (show header.toBytes.length ≤ n by omega), length, split,
        List.append_assoc]
    exact (loads_iff_exists_blocks _).mpr ⟨header, front, earlier, rest, layout, formed, ends⟩

/--
A file that is cut short fails as the whole does, or because it is cut short, or
it loads as the front of the listing of the whole. The front of a file that
loads is itself loaded exactly if it has the header and the cut spares the
blocks whose marks it leaves.
-/
theorem load_take (data : List UInt8) (n : Nat) :
    (∀ e, load (.ofBytes (data.take n)) = .error e →
      isVerdict e = true ∧ load (.ofBytes data) = .error e ∨ ∃ part, e = .truncated part) ∧
    (∀ front, load (.ofBytes (data.take n)) = .ok front →
      ∀ listing, load (.ofBytes data) = .ok listing → front.IsFrontOf listing) ∧
    ∀ listing, load (.ofBytes data) = .ok listing →
      ((∃ front, load (.ofBytes (data.take n)) = .ok front) ↔
        headerSize ≤ n ∧ ¬CutsBlock data n) := by
  have foretold := load_foretells (.ofBytes (data.take n)) (.ofBytes (data.drop n))
  rw [Source.ofBytes_take_followedBy] at foretold
  refine ⟨?_, ?_, fun listing loaded => load_take_ok_iff loaded n⟩
  · intro e failed
    rw [failed, foretells_error_iff] at foretold
    refine foretold.imp id ?_
    rintro ⟨part⟩
    exact ⟨part, rfl⟩
  · intro front read listing loaded
    rw [read, foretells_ok_iff, loaded] at foretold
    rcases foretold with same | ⟨-, goesOn⟩
    · cases same
      exact ⟨List.prefix_rfl, rfl, Nat.le_refl _⟩
    · exact goesOn listing rfl

/-- Two blocks; the mark of the second one starts behind 47 bytes. -/
def twoBlocks : List UInt8 := print [{ label := "A", text := "a" }, { label := "bc" }] 7

theorem cutsBlock_twoBlocks : CutsBlock twoBlocks 51 := by
  have fits : ∀ e ∈ [{ label := "A", text := "a" }, ({ label := "bc" } : Entry)],
      (Block.ofEntry e).Fits := by
    intro e member
    apply fits_ofEntry
    simp only [List.mem_cons, List.not_mem_nil, or_false] at member
    rcases member with rfl | rfl <;> exact ⟨by decide, by decide, by decide⟩
  have first := blockForm_toBytes (fits _ List.mem_cons_self)
  have second := blockForm_toBytes (fits _ (.tail _ List.mem_cons_self))
  refine ⟨headerFor 2 7, _, _, [], _, _, ?_, .cons first .nil, second, ?_, ?_⟩
  · simp [twoBlocks, print]
  · decide
  · decide

/-- Three bytes of a mark are passed over; with the fourth one the cut is noticed. -/
theorem load_take_within_mark_and_block :
    load (.ofBytes (twoBlocks.take 50)) =
        .ok { entries := [{ label := "A", text := "a" }], maxLabelLen := 1, languageId := 7 } ∧
      load (.ofBytes twoBlocks) =
        .ok { entries := [{ label := "A", text := "a" }, { label := "bc" }], maxLabelLen := 2,
              languageId := 7 } ∧
      ¬∃ front, load (.ofBytes (twoBlocks.take 51)) = .ok front := by
  have whole : load (.ofBytes twoBlocks) =
      .ok { entries := [{ label := "A", text := "a" }, { label := "bc" }], maxLabelLen := 2,
            languageId := 7 } := by
    cbv
  refine ⟨by cbv, whole, ?_⟩
  intro accepted
  exact (((load_take twoBlocks 51).2.2 _ whole).mp accepted).2 cutsBlock_twoBlocks

end Phrasebook.Compiled

import Phrasebook.Compiled.Load
import Phrasebook.Proofs.Bytes.Front
import Phrasebook.Proofs.FirstUnderLabel

/-!
# The grammar of a compiled file

The form of a part of a file says which bytes make up which values. Each reader
takes from the front of a source exactly the bytes of the form of its part, so
that a file is loaded exactly if it has the form of a header, blocks and a tail
in which no block starts.

`Reads` relates a reader to a form, and `Reads.bind` composes the two alike. It
speaks about every source: a fault can only be met by a reader that fails.
-/

namespace Phrasebook.Compiled

open Bytes

/-! ## Forms -/

abbrev Form (α : Type) := List UInt8 → α → Prop

/-- Values one after another, each in its form. -/
inductive Sequence (form : Form α) : Form (List α)
  | nil : Sequence form [] []
  | cons {front more : List UInt8} {first : α} {others : List α} (head : form front first)
      (tail : Sequence form more others) : Sequence form (front ++ more) (first :: others)

/--
A variant is its mark, the number of its units and two bytes for each of them.
Behind the other mark, a cue and its length follow.
-/
inductive VariantForm : Form Variant
  | silent {raw : List UInt8} (count : UInt32) (size : raw.length = 2 * count.toNat) :
      VariantForm (textMark ++ wordBytes count ++ raw)
        { units := Text.unitsOfBytes raw, cue := none }
  | spoken {raw cue : List UInt8} (count length : UInt32) (size : raw.length = 2 * count.toNat)
      (cueSize : cue.length = length.toNat) :
      VariantForm (cueMark ++ wordBytes count ++ raw ++ wordBytes length ++ cue)
        { units := Text.unitsOfBytes raw, cue := some cue }

/-- A block is its mark, two counts, its label and as many variants as the first count says. -/
inductive BlockForm : Form Block
  | mk {label body : List UInt8} {variants : List Variant} (count length : UInt32)
      (labelSize : label.length = length.toNat) (variantCount : variants.length = count.toNat)
      (each : Sequence VariantForm body variants) :
      BlockForm (labelMark ++ wordBytes count ++ wordBytes length ++ label ++ body)
        { label, variants }

theorem BlockForm.starts {bytes : List UInt8} {block : Block} (form : BlockForm bytes block) :
    ∃ body, bytes = labelMark ++ body := by
  cases form with
  | @mk label body variants count length _ _ _ =>
      exact ⟨wordBytes count ++ (wordBytes length ++ (label ++ body)), by simp⟩

/-- No block starts here: another mark does, or the data ends before a mark is complete. -/
def NoBlock (tail : Source) : Prop :=
  (tail.pending.length < markSize ∧ tail.fault = none) ∨
    (markSize ≤ tail.pending.length ∧ tail.pending.take markSize ≠ labelMark)

/-! ## Readers of a form -/

/-- The reader takes the bytes of the form from the front, and fails where there are none. -/
def Reads (reader : Reader α) (form : Form α) : Prop :=
  ∀ source value rest, reader source = .ok (value, rest) ↔
    ∃ used, form used value ∧ source = rest.prepend used

theorem bind_eq_ok_iff {reader : Reader α} {next : α → Reader β} {source rest : Source}
    {value : β} :
    (reader >>= next) source = .ok (value, rest) ↔
      ∃ first middle, reader source = .ok (first, middle) ∧
        next first middle = .ok (value, rest) := by
  change (Except.bind (reader source) fun pair => next pair.1 pair.2) = .ok (value, rest) ↔ _
  cases reader source with
  | error e => simp [Except.bind]
  | ok pair =>
      rcases pair with ⟨first, middle⟩
      simp [Except.bind, and_assoc]

namespace Reads

theorem congr {reader : Reader α} {form other : Form α} (reads : Reads reader form)
    (same : ∀ used value, form used value ↔ other used value) : Reads reader other := by
  intro source value rest
  rw [reads source value rest]
  exact exists_congr fun used => and_congr_left' (same used value)

theorem pure (a : α) : Reads (Pure.pure a) fun used value => used = [] ∧ value = a := by
  intro source value rest
  change Except.ok (a, source) = .ok (value, rest) ↔ _
  constructor
  · intro h
    cases h
    exact ⟨[], ⟨rfl, rfl⟩, rfl⟩
  · intro h
    rcases h with ⟨used, ⟨rfl, rfl⟩, rfl⟩
    rfl

theorem bind {reader : Reader α} {next : α → Reader β} {form : Form α} {forms : α → Form β}
    (first : Reads reader form) (second : ∀ a, Reads (next a) (forms a)) :
    Reads (reader >>= next) fun used value =>
      ∃ a front more, used = front ++ more ∧ form front a ∧ forms a more value := by
  intro source value rest
  rw [bind_eq_ok_iff]
  constructor
  · intro h
    rcases h with ⟨a, middle, read, readNext⟩
    rcases (first _ _ _).mp read with ⟨front, formed, rfl⟩
    rcases (second a _ _ _).mp readNext with ⟨more, formedNext, rfl⟩
    exact ⟨front ++ more, ⟨a, front, more, rfl, formed, formedNext⟩,
      (Source.prepend_append _ _ _).symm⟩
  · intro h
    rcases h with ⟨used, ⟨a, front, more, rfl, formed, formedNext⟩, rfl⟩
    have read := (first _ a (rest.prepend more)).mpr ⟨front, formed, rfl⟩
    have readNext := (second a _ value rest).mpr ⟨more, formedNext, rfl⟩
    rw [Source.prepend_append]
    exact ⟨a, rest.prepend more, read, readNext⟩

theorem map {reader : Reader α} {form : Form α} (reads : Reads reader form) (f : α → β) :
    Reads (reader >>= fun a => Pure.pure (f a)) fun used value =>
      ∃ a, form used a ∧ value = f a := by
  apply (bind reads fun a => pure (f a)).congr
  intro used value
  constructor
  · intro h
    rcases h with ⟨a, front, more, rfl, formed, rfl, rfl⟩
    exact ⟨a, by rwa [List.append_nil], rfl⟩
  · intro h
    rcases h with ⟨a, formed, rfl⟩
    exact ⟨a, used, [], (List.append_nil used).symm, formed, rfl, rfl⟩

theorem guard {condition : Prop} [Decidable condition] {e : LoadError} {next : α → Reader β}
    {reader : Reader β} {form : Form β} (reads : Reads reader form) :
    Reads (if condition then (MonadExcept.throw e : Reader α) >>= next else reader)
      fun used value => ¬condition ∧ form used value := by
  intro source value rest
  by_cases failed : condition
  · rw [if_pos failed, bind_eq_ok_iff]
    constructor
    · intro h
      rcases h with ⟨_, _, impossible, -⟩
      cases impossible
    · intro h
      rcases h with ⟨used, ⟨passed, -⟩, -⟩
      exact (passed failed).elim
  · rw [if_neg failed, reads]
    simp only [failed, not_false_eq_true, true_and]

theorem ite {condition : Prop} [Decidable condition] {yes no : Reader α} {form other : Form α}
    (whenTrue : Reads yes form) (whenFalse : Reads no other) :
    Reads (if condition then yes else no) fun used value =>
      if condition then form used value else other used value := by
  split
  · exact whenTrue
  · exact whenFalse

/-! ### Parts of known size -/

theorem split {reader : Reader (List UInt8)} {size : Nat} {next : List UInt8 → Reader β}
    {forms : List UInt8 → Form β}
    (taken : ∀ source pair, reader source = .ok pair ↔ source.split? size = some pair)
    (second : ∀ raw, Reads (next raw) (forms raw)) :
    Reads (reader >>= next) fun used value =>
      ∃ raw more, used = raw ++ more ∧ raw.length = size ∧ forms raw more value := by
  have first : Reads reader fun used value => used = value ∧ value.length = size := by
    intro source value rest
    rw [taken, Source.split?_eq_some_iff]
    simp [and_assoc]
  apply (bind first second).congr
  intro used value
  constructor
  · intro h
    rcases h with ⟨raw, front, more, rfl, ⟨rfl, length⟩, formed⟩
    exact ⟨front, more, rfl, length, formed⟩
  · intro h
    rcases h with ⟨raw, more, rfl, length, formed⟩
    exact ⟨raw, raw, more, rfl, ⟨rfl, length⟩, formed⟩

theorem field (size : Nat) (part : String) {next : List UInt8 → Reader β}
    {forms : List UInt8 → Form β} (second : ∀ raw, Reads (next raw) (forms raw)) :
    Reads (readField size part >>= next) fun used value =>
      ∃ raw more, used = raw ++ more ∧ raw.length = size ∧ forms raw more value := by
  apply split _ second
  intro source pair
  unfold readField
  cases source.split? size with
  | some taken => simp
  | none => cases source.fault <;> simp

theorem run (length : Nat) (part : String) {next : List UInt8 → Reader β}
    {forms : List UInt8 → Form β} (second : ∀ raw, Reads (next raw) (forms raw)) :
    Reads (readRun length part >>= next) fun used value =>
      ∃ raw more, used = raw ++ more ∧ raw.length = length ∧ forms raw more value := by
  apply split _ second
  intro source pair
  unfold readRun
  cases source.split? length with
  | some taken => simp
  | none => cases source.fault <;> simp

theorem word (part : String) {next : UInt32 → Reader β} {forms : UInt32 → Form β}
    (second : ∀ w, Reads (next w) (forms w)) :
    Reads (readWord part >>= next) fun used value =>
      ∃ w more, used = wordBytes w ++ more ∧ forms w more value := by
  have first : Reads (readWord part) fun used value => used = wordBytes value := by
    apply (field 4 part fun raw => pure (wordOfBytes raw)).congr
    intro used value
    constructor
    · intro h
      rcases h with ⟨raw, more, rfl, four, rfl, rfl⟩
      rw [List.append_nil, wordBytes_wordOfBytes four]
    · intro h
      exact ⟨wordBytes value, [], by rw [h, List.append_nil], length_wordBytes value, rfl,
        (wordOfBytes_wordBytes value).symm⟩
  apply (bind first second).congr
  intro used value
  constructor
  · intro h
    rcases h with ⟨w, front, more, rfl, rfl, formed⟩
    exact ⟨w, more, rfl, formed⟩
  · intro h
    rcases h with ⟨w, more, rfl, formed⟩
    exact ⟨w, wordBytes w, more, rfl, rfl, formed⟩

end Reads

/-! ## Variants and blocks -/

/-- What stands behind the text of a variant, as its mark announces it. -/
def CueForm (mark : List UInt8) : Form (Option (List UInt8)) := fun used value =>
  if mark = cueMark then
    ∃ (length : UInt32) (cue : List UInt8),
      used = wordBytes length ++ cue ∧ cue.length = length.toNat ∧ value = some cue
  else used = [] ∧ value = none

theorem reads_readCue? (mark : List UInt8) : Reads (readCue? mark) (CueForm mark) := by
  apply Reads.congr (.ite (.word _ fun length => .run length.toNat _ fun _ => .pure _) (.pure _))
  intro used value
  unfold CueForm
  split
  · constructor
    · intro h
      rcases h with ⟨length, _, rfl, cue, _, rfl, size, rfl, rfl⟩
      exact ⟨length, cue, by rw [List.append_nil], size, rfl⟩
    · intro h
      rcases h with ⟨length, cue, rfl, size, rfl⟩
      exact ⟨length, cue, rfl, cue, [], (List.append_nil cue).symm, size, rfl, rfl⟩
  · exact Iff.rfl

theorem reads_readVariant (label : String) : Reads (readVariant label) VariantForm := by
  apply Reads.congr (.field _ _ fun mark => .guard (.word _ fun count =>
    .run (2 * count.toNat) _ fun raw => .map (reads_readCue? mark) _))
  intro used value
  constructor
  · intro h
    rcases h with ⟨mark, _, rfl, -, known, count, _, rfl, raw, _, rfl, size, cue, cueForm, rfl⟩
    unfold CueForm at cueForm
    by_cases spoken : mark = cueMark
    · rw [if_pos spoken] at cueForm
      rcases cueForm with ⟨length, cue, rfl, cueSize, rfl⟩
      rw [spoken]
      simpa using VariantForm.spoken count length size cueSize
    · rw [if_neg spoken] at cueForm
      rcases cueForm with ⟨rfl, rfl⟩
      have text : mark = textMark := by
        by_contra other
        exact known ⟨other, spoken⟩
      rw [text]
      simpa using VariantForm.silent count size
  · intro form
    cases form with
    | @silent raw count size =>
        have noCue : CueForm textMark [] none := by
          rw [CueForm, if_neg (by decide)]
          exact ⟨rfl, rfl⟩
        exact ⟨textMark, wordBytes count ++ (raw ++ []), by simp, rfl, by simp, count, raw ++ [],
          rfl, raw, [], rfl, size, none, noCue, rfl⟩
    | @spoken raw cue count length size cueSize =>
        have named : CueForm cueMark (wordBytes length ++ cue) (some cue) := by
          rw [CueForm, if_pos rfl]
          exact ⟨length, cue, rfl, cueSize, rfl⟩
        exact ⟨cueMark, wordBytes count ++ (raw ++ (wordBytes length ++ cue)), by simp, rfl,
          by simp, count, raw ++ (wordBytes length ++ cue), rfl, raw, wordBytes length ++ cue, rfl,
          size, some cue, named, rfl⟩

theorem reads_readVariants (label : String) (count : Nat) :
    Reads (readVariants label count) fun used variants =>
      Sequence VariantForm used variants ∧ variants.length = count := by
  induction count with
  | zero =>
      apply Reads.congr (.pure _)
      intro used variants
      constructor
      · intro h
        rcases h with ⟨rfl, rfl⟩
        exact ⟨.nil, rfl⟩
      · intro h
        rcases h with ⟨each, none⟩
        cases each with
        | nil => exact ⟨rfl, rfl⟩
        | cons => cases none
  | succ count ih =>
      apply Reads.congr (.bind (reads_readVariant label) fun first => .map ih _)
      intro used variants
      constructor
      · intro h
        rcases h with ⟨first, front, more, rfl, head, others, ⟨tail, size⟩, rfl⟩
        exact ⟨.cons head tail, congrArg Nat.succ size⟩
      · intro h
        rcases h with ⟨each, size⟩
        cases each with
        | nil => cases size
        | @cons front more first others head tail =>
            exact ⟨first, front, more, rfl, head, others, ⟨tail, Nat.succ.inj size⟩, rfl⟩

theorem reads_readBlockBody :
    Reads readBlockBody fun used block => BlockForm (labelMark ++ used) block := by
  apply Reads.congr (.word _ fun count => .word _ fun length => .run length.toNat _ fun label =>
    .map (reads_readVariants (Text.widen label) count.toNat) _)
  intro used block
  constructor
  · intro h
    rcases h with ⟨count, _, rfl, length, _, rfl, label, body, rfl, labelSize, variants,
      ⟨each, variantCount⟩, rfl⟩
    simpa using BlockForm.mk count length labelSize variantCount each
  · intro form
    generalize whole : labelMark ++ used = bytes at form
    cases form with
    | @mk label body variants count length labelSize variantCount each =>
        have rest : used = wordBytes count ++ (wordBytes length ++ (label ++ body)) := by
          simpa using whole
        exact ⟨count, _, rest, length, _, rfl, label, body, rfl, labelSize, variants,
          ⟨each, variantCount⟩, rfl⟩

/-! ## Files -/

theorem readMark_eq_some_iff {source rest : Source} {mark : List UInt8} :
    readMark source = .ok (some mark, rest) ↔
      mark.length = markSize ∧ source = rest.prepend mark := by
  rw [← Source.split?_eq_some_iff]
  unfold readMark
  cases source.split? markSize with
  | some pair =>
      rcases pair with ⟨front, behind⟩
      simp
  | none => cases source.fault <;> simp

theorem readMark_eq_none_iff {source rest : Source} :
    readMark source = .ok (none, rest) ↔
      source.pending.length < markSize ∧ source.fault = none ∧ rest = source.exhausted := by
  simp only [readMark, Source.split?, List.length_take]
  by_cases short : source.pending.length < markSize
  · have few : min markSize source.pending.length ≠ markSize := by omega
    cases fault : source.fault <;> simp [few, short, eq_comm]
  · have enough : min markSize source.pending.length = markSize := by omega
    simp [enough, short]

theorem readBlocks_block {source middle rest : Source} {block : Block}
    (mark : readMark source = .ok (some labelMark, middle))
    (body : readBlockBody middle = .ok (block, rest)) :
    readBlocks source = (readBlocks rest).map (block :: ·) := by
  rw [readBlocks]
  split <;> simp_all
  split <;> simp_all
  split <;> simp_all [Except.map]

theorem readBlocks_noBlock {tail : Source} (stop : NoBlock tail) : readBlocks tail = .ok [] := by
  rw [readBlocks]
  split
  next read =>
    unfold readMark Source.split? at read
    rcases stop with ⟨short, healthy⟩ | ⟨enough, -⟩
    · simp only [healthy] at read
      split at read <;> cases read
    · have full : (tail.pending.take markSize).length = markSize := by
        rw [List.length_take]
        omega
      rw [if_pos full] at read
      cases read
  next => rfl
  next mark rest read =>
    rcases readMark_eq_some_iff.mp read with ⟨size, rfl⟩
    rcases stop with ⟨short, -⟩ | ⟨-, other⟩
    · simp only [Source.pending_prepend, List.length_append] at short
      omega
    · rw [Source.pending_prepend, List.take_left' size] at other
      rw [if_neg other]

theorem readBlocks_prepend {used : List UInt8} {blocks : List Block}
    (each : Sequence BlockForm used blocks) (source : Source) :
    readBlocks (source.prepend used) = (readBlocks source).map (blocks ++ ·) := by
  induction each with
  | nil =>
      show readBlocks source = (readBlocks source).map ([] ++ ·)
      cases readBlocks source <;> rfl
  | @cons front more block others form _ ih =>
      obtain ⟨body, rfl⟩ := form.starts
      have mark : readMark (source.prepend (labelMark ++ body ++ more)) =
          .ok (some labelMark, (source.prepend more).prepend body) :=
        readMark_eq_some_iff.mpr ⟨rfl, by simp only [Source.prepend_append]⟩
      rw [readBlocks_block mark ((reads_readBlockBody _ _ _).mpr ⟨body, form, rfl⟩), ih]
      cases readBlocks source <;> rfl

theorem readBlocks_eq_ok_iff (source : Source) (blocks : List Block) :
    readBlocks source = .ok blocks ↔
      ∃ used tail, source = tail.prepend used ∧ Sequence BlockForm used blocks ∧
        NoBlock tail := by
  constructor
  · intro read
    fun_induction readBlocks source generalizing blocks with
    | case1 => cases read
    | case2 source _ mark =>
        cases read
        rcases readMark_eq_none_iff.mp mark with ⟨short, healthy, -⟩
        exact ⟨[], source, rfl, .nil, .inl ⟨short, healthy⟩⟩
    | case3 => cases read
    | case4 => cases read
    | case5 source middle block rest body others readOthers mark ih =>
        cases read
        rcases readMark_eq_some_iff.mp mark with ⟨-, rfl⟩
        rcases (reads_readBlockBody _ _ _).mp body with ⟨front, form, rfl⟩
        rcases ih _ readOthers with ⟨more, tail, rfl, each, stop⟩
        refine ⟨labelMark ++ front ++ more, tail, ?_, .cons form each, stop⟩
        simp only [Source.prepend_append]
    | case6 source mark rest readFirst other =>
        cases read
        rcases readMark_eq_some_iff.mp readFirst with ⟨size, whole⟩
        refine ⟨[], source, rfl, .nil, .inr ⟨?_, ?_⟩⟩
        · simp only [whole, Source.pending_prepend, List.length_append]
          omega
        · rwa [whole, Source.pending_prepend, List.take_left' size]
  · intro h
    rcases h with ⟨used, tail, rfl, each, stop⟩
    rw [readBlocks_prepend each, readBlocks_noBlock stop, Except.map, List.append_nil]

theorem drop_eq_wordBytes_append (raw : List UInt8) (n : Nat) (inside : 4 * n + 4 ≤ raw.length) :
    raw.drop (4 * n) =
      wordBytes (wordOfBytes ((raw.drop (4 * n)).take 4)) ++ raw.drop (4 * (n + 1)) := by
  have four : ((raw.drop (4 * n)).take 4).length = 4 := by
    rw [List.length_take, List.length_drop]
    omega
  rw [wordBytes_wordOfBytes four, Nat.mul_succ, ← List.drop_drop, List.take_append_drop]

/-- The header whose words stand in the raw bytes behind the mark. -/
def headerAt (raw : List UInt8) : Header :=
  let wordAt (n : Nat) : UInt32 := wordOfBytes ((raw.drop (4 * n)).take 4)
  { version := wordAt 1
    labelCount := wordAt 2
    stringCount := wordAt 3
    reserved := wordAt 4
    languageId := wordAt 5 }

theorem headerAt_toBytes (header : Header) : headerAt header.toBytes = header := by
  have version : (header.toBytes.drop (4 * 1)).take 4 = wordBytes header.version := rfl
  have labels : (header.toBytes.drop (4 * 2)).take 4 = wordBytes header.labelCount := rfl
  have strings : (header.toBytes.drop (4 * 3)).take 4 = wordBytes header.stringCount := rfl
  have reserved : (header.toBytes.drop (4 * 4)).take 4 = wordBytes header.reserved := rfl
  have language : (header.toBytes.drop (4 * 5)).take 4 = wordBytes header.languageId := rfl
  simp only [headerAt, version, labels, strings, reserved, language, wordOfBytes_wordBytes]

theorem toBytes_headerAt {raw : List UInt8} (size : raw.length = headerSize)
    (marked : raw.take markSize = fileMark) : (headerAt raw).toBytes = raw := by
  have word (n : Nat) (inside : n < 6) := drop_eq_wordBytes_append raw n (by
    rw [size, headerSize]
    omega)
  have nothing : raw.drop (4 * 6) = [] := List.drop_eq_nil_of_le (by rw [size]; decide)
  calc
    (headerAt raw).toBytes = fileMark ++ raw.drop (4 * 1) := by
      rw [word 1 (by decide), word 2 (by decide), word 3 (by decide), word 4 (by decide),
        word 5 (by decide), nothing]
      simp [headerAt, Header.toBytes]
    _ = raw := by
      rw [← marked]
      exact List.take_append_drop 4 raw

theorem reads_readHeader : Reads readHeader fun used header => used = header.toBytes := by
  apply Reads.congr (.field _ _ fun raw => .guard (.pure (headerAt raw)))
  intro used header
  constructor
  · intro h
    rcases h with ⟨raw, _, rfl, size, marked, rfl, rfl⟩
    rw [List.append_nil, toBytes_headerAt size (Decidable.not_not.mp marked)]
  · intro h
    have marked : header.toBytes.take markSize = fileMark := rfl
    exact ⟨header.toBytes, [], by rw [h, List.append_nil], rfl, Decidable.not_not.mpr marked, rfl,
      (headerAt_toBytes header).symm⟩

theorem load_eq_ok_iff (source : Source) (listing : Listing) :
    load source = .ok listing ↔
      ∃ (header : Header) (body : List UInt8) (blocks : List Block) (tail : Source),
        source = tail.prepend (header.toBytes ++ body) ∧ Sequence BlockForm body blocks ∧
          NoBlock tail ∧
          listing = .ofBlocks (blocks.map Block.entry) header.effectiveLanguageId := by
  have steps : load source = .ok listing ↔
      ∃ header rest, readHeader source = .ok (header, rest) ∧
        ∃ blocks, readBlocks rest = .ok blocks ∧
          listing = .ofBlocks (blocks.map Block.entry) header.effectiveLanguageId := by
    unfold load
    cases readHeader source with
    | error e => simp [bind, Except.bind]
    | ok pair =>
        rcases pair with ⟨header, rest⟩
        cases blocks : readBlocks rest <;>
          simp [bind, Except.bind, pure, Except.pure, blocks, eq_comm]
  rw [steps]
  constructor
  · intro h
    rcases h with ⟨header, rest, read, blocks, readRest, result⟩
    rcases (reads_readHeader _ _ _).mp read with ⟨_, rfl, rfl⟩
    rcases (readBlocks_eq_ok_iff _ _).mp readRest with ⟨body, tail, rfl, each, stop⟩
    exact ⟨header, body, blocks, tail, (Source.prepend_append _ _ _).symm, each, stop, result⟩
  · intro h
    rcases h with ⟨header, body, blocks, tail, rfl, each, stop, result⟩
    exact ⟨header, tail.prepend body,
      (reads_readHeader _ _ _).mpr ⟨_, rfl, Source.prepend_append _ _ _⟩,
      blocks, (readBlocks_eq_ok_iff _ _).mpr ⟨body, tail, rfl, each, stop⟩, result⟩

/-! ## What a file means -/

/-- The entry under the label of a block: what its first variant holds, if it has one. -/
def Block.meaning (block : Block) : Entry where
  label := Text.widen block.label
  text := (block.variants.head?.map fun v => Text.squeeze (Text.decodeStored v.units)).getD ""
  cue := ((block.variants.head?.bind Variant.cue).map Text.widen).getD ""

theorem Block.entry_eq_meaning (block : Block) : block.entry = block.meaning := by
  cases block with
  | mk label variants =>
      cases variants with
      | nil => rfl
      | cons first others =>
          cases cue : first.cue <;> simp [Block.entry, Block.meaning, cue, Text.widen]

theorem ofBlocks_entry (blocks : List Block) (languageId : UInt32) :
    Listing.ofBlocks (blocks.map Block.entry) languageId =
      { entries := unrepeated (blocks.map Block.meaning)
        maxLabelLen := (blocks.map fun block => block.label.length).max?.getD 0
        languageId } := by
  have entries : blocks.map Block.entry = blocks.map Block.meaning :=
    List.map_congr_left fun block _ => block.entry_eq_meaning
  have lengths : (blocks.map Block.meaning).map (fun e => e.label.length) =
      blocks.map fun block => block.label.length := by
    simp [Block.meaning, List.map_map, Function.comp_def]
  rw [Listing.ofBlocks_eq_unrepeated, entries, lengths]

theorem noBlock_ofBytes (tail : List UInt8) :
    NoBlock (.ofBytes tail) ↔ tail.length < markSize ∨ tail.take markSize ≠ labelMark := by
  have full : markSize ≤ tail.length ∨ tail.length < markSize := by omega
  simp only [NoBlock, Source.ofBytes, and_true]
  tauto

/--
Bytes are a compiled file exactly if they are a header, blocks and a tail that
has fewer than four bytes or starts with another mark. The listing has the
entry of each block whose label no earlier block has.
-/
theorem loads_iff_layout (data : List UInt8) (listing : Listing) :
    load (.ofBytes data) = .ok listing ↔
      ∃ (header : Header) (body : List UInt8) (blocks : List Block) (tail : List UInt8),
        data = header.toBytes ++ body ++ tail ∧
        Sequence BlockForm body blocks ∧
        (tail.length < markSize ∨ tail.take markSize ≠ labelMark) ∧
        listing =
          { entries := unrepeated (blocks.map Block.meaning)
            maxLabelLen := (blocks.map fun block => block.label.length).max?.getD 0
            languageId := if 1 < header.version then header.languageId else 0 } := by
  rw [load_eq_ok_iff]
  constructor
  · intro h
    rcases h with ⟨header, body, blocks, ⟨tail, fault⟩, whole, each, stop, rfl⟩
    obtain ⟨rfl, rfl⟩ : data = header.toBytes ++ body ++ tail ∧ none = fault := by
      simpa [Source.ofBytes, Source.prepend] using whole
    exact ⟨header, body, blocks, tail, rfl, each, (noBlock_ofBytes tail).mp stop,
      ofBlocks_entry blocks _⟩
  · intro h
    rcases h with ⟨header, body, blocks, tail, rfl, each, stop, rfl⟩
    exact ⟨header, body, blocks, .ofBytes tail, rfl, each, (noBlock_ofBytes tail).mpr stop,
      (ofBlocks_entry blocks _).symm⟩

end Phrasebook.Compiled

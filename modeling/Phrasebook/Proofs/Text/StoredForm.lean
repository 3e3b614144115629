import Mathlib.Data.List.Basic
import Phrasebook.Proofs.Text.StoredUnits

/-!
# Texts and the bytes that store them

A text comes back from the bytes that store it, up to the first character that
ends a stored text. Bytes come back from the text that they hold exactly if the
reader dropped and replaced nothing: no odd byte, no unit that ends the text, and
no surrogate without its partner.
-/

namespace Phrasebook.Text

/-! ## Paired surrogates -/

/-- At every cut, a high surrogate stands in front exactly if a low one stands behind. -/
def WellPaired (units : List UInt16) : Prop :=
  ∀ front rest, units = front ++ rest →
    front.getLast?.any isHighSurrogate = rest.head?.any isLowSurrogate

theorem WellPaired.last {units : List UInt16} (paired : WellPaired units) :
    units.getLast?.any isHighSurrogate = false :=
  paired units [] (List.append_nil units).symm

theorem WellPaired.first {units : List UInt16} (paired : WellPaired units) :
    units.head?.any isLowSurrogate = false :=
  (paired [] units rfl).symm

theorem getLast?_append_any {front : List UInt16}
    (settled : front.getLast?.any isHighSurrogate = false) (units : List UInt16) :
    (front ++ units).getLast?.any isHighSurrogate = units.getLast?.any isHighSurrogate := by
  cases units with
  | nil => rw [List.append_nil, settled]; rfl
  | cons u more => rw [List.getLast?_append_of_ne_nil _ (List.cons_ne_nil u more)]

theorem head?_append_any {rest : List UInt16}
    (settled : rest.head?.any isLowSurrogate = false) (units : List UInt16) :
    (units ++ rest).head?.any isLowSurrogate = units.head?.any isLowSurrogate := by
  cases units with
  | nil => exact settled
  | cons u more => rfl

/-- Nothing pairs across the end of units that are well paired themselves. -/
theorem wellPaired_append {front rest : List UInt16} (paired : WellPaired front) :
    WellPaired (front ++ rest) ↔ WellPaired rest := by
  constructor
  · rintro whole before behind rfl
    rw [← getLast?_append_any paired.last]
    exact whole (front ++ before) behind (List.append_assoc ..).symm
  · intro pairedRest before behind whole
    rcases List.append_eq_append_iff.mp whole with ⟨middle, rfl, rfl⟩ | ⟨middle, rfl, rfl⟩
    · rw [getLast?_append_any paired.last]
      exact pairedRest middle behind rfl
    · rw [head?_append_any pairedRest.first]
      exact paired before middle rfl

theorem wellPaired_nil : WellPaired [] := by
  intro front rest whole
  obtain ⟨rfl, rfl⟩ := List.append_eq_nil_iff.mp whole.symm
  rfl

theorem wellPaired_single {u : UInt16} (notHigh : isHighSurrogate u = false)
    (notLow : isLowSurrogate u = false) : WellPaired [u] := by
  intro front rest whole
  rcases List.append_eq_singleton_iff.mp whole.symm with ⟨rfl, rfl⟩ | ⟨rfl, rfl⟩
  · exact notLow.symm
  · exact notHigh

theorem wellPaired_pair {high low : UInt16} (opens : isHighSurrogate high = true)
    (closes : isLowSurrogate low = true) : WellPaired [high, low] := by
  have notLow : isLowSurrogate high = false := by
    rw [isHighSurrogate_iff] at opens
    rw [Bool.eq_false_iff, Ne, isLowSurrogate_iff]
    omega
  have notHigh : isHighSurrogate low = false := by
    rw [isLowSurrogate_iff] at closes
    rw [Bool.eq_false_iff, Ne, isHighSurrogate_iff]
    omega
  intro front rest whole
  match front, rest, whole with
  | [], _, rfl => exact notLow.symm
  | [_], _, rfl => exact opens.trans closes.symm
  | [_, _], _, rfl => exact notHigh

theorem wellPaired_charUnits (c : Char) : WellPaired (charUnits c) := by
  rcases charUnits_cases c with ⟨u, written, notHigh, notLow, -⟩ | ⟨high, low, written, opens,
    closes, -⟩
  · exact written ▸ wellPaired_single notHigh notLow
  · exact written ▸ wellPaired_pair opens closes

theorem wellPaired_flatMap_charUnits (chars : List Char) :
    WellPaired (chars.flatMap charUnits) := by
  induction chars with
  | nil => exact wellPaired_nil
  | cons c rest ih =>
      rw [List.flatMap_cons]
      exact (wellPaired_append (wellPaired_charUnits c)).mpr ih

/-! ## Units that were read and are written again -/

theorem charUnits_unitChar {u : UInt16} (notHigh : isHighSurrogate u = false)
    (notLow : isLowSurrogate u = false) : charUnits (unitChar u) = [u] := by
  have value := toNat_unitChar notHigh notLow
  have bound := u.toNat_lt
  rw [charUnits, if_pos (by omega), value]
  simp

theorem charUnits_pairChar {high low : UInt16} (opens : isHighSurrogate high = true)
    (closes : isLowSurrogate low = true) : charUnits (pairChar high low) = [high, low] := by
  have value := toNat_pairChar opens closes
  have beyond := lt_toNat_pairChar opens closes
  rw [isHighSurrogate_iff] at opens
  rw [isLowSurrogate_iff] at closes
  rw [charUnits, if_neg (by omega)]
  simp only [List.cons.injEq, and_true]
  refine ⟨?_, ?_⟩ <;> apply UInt16.toNat_inj.mp <;>
    simp only [Nat.toUInt16, UInt16.toNat_ofNat'] <;> omega

theorem flatMap_charUnits_decodeUnits {units : List UInt16} (paired : WellPaired units) :
    (decodeUnits units).flatMap charUnits = units := by
  fun_induction decodeUnits units with
  | case1 => rfl
  | case2 u =>
      rw [List.flatMap_singleton]
      exact charUnits_unitChar paired.last paired.first
  | case3 u v rest pair ih =>
      rw [Bool.and_eq_true] at pair
      have more := (wellPaired_append (wellPaired_pair pair.1 pair.2)).mp paired
      rw [List.flatMap_cons, charUnits_pairChar pair.1 pair.2, ih more]
      rfl
  | case4 u v rest apart ih =>
      have notLow : isLowSurrogate u = false := paired.first
      have level : isHighSurrogate u = isLowSurrogate v := paired [u] (v :: rest) rfl
      have notHigh : isHighSurrogate u = false := by
        rwa [← level, Bool.and_self, Bool.not_eq_true] at apart
      have more := (wellPaired_append (wellPaired_single notHigh notLow)).mp paired
      rw [List.flatMap_cons, charUnits_unitChar notHigh notLow, ih more]
      rfl

theorem flatMap_charUnits_decodeUnits_iff {units : List UInt16} :
    (decodeUnits units).flatMap charUnits = units ↔ WellPaired units :=
  ⟨fun same => same ▸ wellPaired_flatMap_charUnits _, flatMap_charUnits_decodeUnits⟩

theorem encodeStored_decodeStored_iff {stored : List UInt16} :
    encodeStored (decodeStored stored) = stored ↔
      (∀ u ∈ stored, isTextUnit u = true) ∧ WellPaired (stored.map invertUnit) := by
  have written : encodeStored (decodeStored stored) =
      ((decodeUnits ((stored.takeWhile isTextUnit).map invertUnit)).flatMap charUnits).map
        invertUnit := by
    rw [encodeStored, encodeUnits, decodeStored, String.toList_ofList]
  have paired : ((decodeUnits (stored.map invertUnit)).flatMap charUnits).map invertUnit = stored ↔
      WellPaired (stored.map invertUnit) := by
    rw [← flatMap_charUnits_decodeUnits_iff]
    constructor
    · intro same
      rw [← map_invertUnit_map_invertUnit (List.flatMap ..), same]
    · intro same
      rw [same, map_invertUnit_map_invertUnit]
  constructor
  · intro same
    have kept : ∀ u ∈ stored, isTextUnit u = true := by
      intro u member
      rw [← same, encodeStored, List.mem_map] at member
      rcases member with ⟨v, among, rfl⟩
      rcases List.mem_flatMap.mp among with ⟨c, inText, here⟩
      exact isTextUnit_of_mem_charUnits (isStorable_of_mem_decodeStored inText) here
    rw [written, List.takeWhile_eq_self_iff.mpr kept] at same
    exact ⟨kept, paired.mp same⟩
  · rintro ⟨kept, pairs⟩
    rw [written, List.takeWhile_eq_self_iff.mpr kept]
    exact paired.mpr pairs

/-! ## Bytes -/

theorem unitBytes_ofNat (low high : UInt8) :
    unitBytes (UInt16.ofNat (low.toNat + 0x100 * high.toNat)) = [low, high] := by
  have lowBound := low.toNat_lt
  have highBound := high.toNat_lt
  simp only [unitBytes, List.cons.injEq, and_true]
  refine ⟨?_, ?_⟩ <;> apply UInt8.toNat_inj.mp <;>
    simp only [UInt8.toNat_ofNat', UInt16.toNat_ofNat'] <;> omega

theorem bytesOfUnits_unitsOfBytes_iff {bytes : List UInt8} :
    bytesOfUnits (unitsOfBytes bytes) = bytes ↔ bytes.length % 2 = 0 := by
  constructor
  · intro same
    rw [← same, length_bytesOfUnits]
    omega
  · intro even
    fun_induction unitsOfBytes bytes with
    | case1 low high rest ih =>
        rw [List.length_cons, List.length_cons] at even
        rw [bytesOfUnits, List.flatMap_cons, unitBytes_ofNat, ← bytesOfUnits, ih (by omega)]
        rfl
    | case2 bytes short =>
        rcases bytes with _ | ⟨low, _ | ⟨high, rest⟩⟩
        · rfl
        · cases even
        · exact (short low high rest rfl).elim

def readStored (bytes : List UInt8) : String := decodeStored (unitsOfBytes bytes)

def storedBytes (text : String) : List UInt8 := bytesOfUnits (encodeStored text)

theorem readStored_storedBytes (text : String) :
    readStored (storedBytes text) = storablePart text := by
  rw [readStored, storedBytes, unitsOfBytes_bytesOfUnits, decodeStored_encodeStored]

theorem storedBytes_readStored_iff {bytes : List UInt8} :
    storedBytes (readStored bytes) = bytes ↔
      bytes.length % 2 = 0 ∧
        encodeStored (decodeStored (unitsOfBytes bytes)) = unitsOfBytes bytes := by
  rw [← bytesOfUnits_unitsOfBytes_iff, storedBytes, readStored]
  constructor
  · intro same
    have units := congrArg unitsOfBytes same
    rw [unitsOfBytes_bytesOfUnits] at units
    exact ⟨units ▸ same, units⟩
  · rintro ⟨even, units⟩
    rw [units, even]

/-! ## Both directions -/

theorem isPrefix_storablePart_iff {text : String} {front : List Char} :
    front <+: (storablePart text).toList ↔
      front <+: text.toList ∧ ∀ c ∈ front, isStorable c = true := by
  rw [storablePart, String.toList_ofList]
  constructor
  · intro start
    exact ⟨start.trans (List.takeWhile_prefix isStorable),
      fun c member => List.mem_takeWhile_imp (start.subset member)⟩
  · rintro ⟨⟨rest, whole⟩, storable⟩
    rw [← whole, List.takeWhile_append_of_pos storable]
    exact List.prefix_append front _

theorem storablePart_eq_self_iff {text : String} :
    storablePart text = text ↔ ∀ c ∈ text.toList, isStorable c = true := by
  rw [← String.toList_inj, storablePart, String.toList_ofList, List.takeWhile_eq_self_iff]

/--
What is read of a text that was stored is the longest part from its beginning
that can be stored: all of it exactly if it has neither U+0000 nor U+FFFF. What
bytes hold can be stored, and comes back; the bytes themselves come back exactly
if they are pairs, none of which ends the text, and their surrogates are paired.
-/
theorem readStored_inverts_storedBytes (text : String) (bytes : List UInt8) :
    (∀ front, front <+: (readStored (storedBytes text)).toList ↔
        front <+: text.toList ∧ ∀ c ∈ front, c ≠ '\x00' ∧ c ≠ '\uFFFF') ∧
      (readStored (storedBytes text) = text ↔
        ∀ c ∈ text.toList, c ≠ '\x00' ∧ c ≠ '\uFFFF') ∧
      (∀ c ∈ (readStored bytes).toList, c ≠ '\x00' ∧ c ≠ '\uFFFF') ∧
      readStored (storedBytes (readStored bytes)) = readStored bytes ∧
      (storedBytes (readStored bytes) = bytes ↔
        bytes.length % 2 = 0 ∧ (∀ u ∈ unitsOfBytes bytes, u ≠ 0 ∧ u ≠ 0xFFFF) ∧
          WellPaired ((unitsOfBytes bytes).map invertUnit)) := by
  have storable (c : Char) : isStorable c = true ↔ c ≠ '\x00' ∧ c ≠ '\uFFFF' := by
    simp [isStorable]
  have textUnit (u : UInt16) : isTextUnit u = true ↔ u ≠ 0 ∧ u ≠ 0xFFFF := by
    simp [isTextUnit]
  have held : ∀ c ∈ (readStored bytes).toList, isStorable c = true :=
    fun c member => isStorable_of_mem_decodeStored member
  simp only [← storable, ← textUnit]
  refine ⟨fun front => ?_, ?_, held, ?_, ?_⟩
  · rw [readStored_storedBytes, isPrefix_storablePart_iff]
  · rw [readStored_storedBytes, storablePart_eq_self_iff]
  · rw [readStored_storedBytes, storablePart_eq_self_iff]
    exact held
  · rw [storedBytes_readStored_iff, encodeStored_decodeStored_iff]

/-- A high surrogate that stands just before the end of the text reads as U+FFFD. -/
example : readStored [0xBE, 0xFF, 0xFF, 0x27, 0x00, 0x00, 0xBD, 0xFF] = "A\uFFFD" := by cbv

end Phrasebook.Text

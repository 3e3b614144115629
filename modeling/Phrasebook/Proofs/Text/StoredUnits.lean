import Mathlib.Data.List.TakeWhile
import Phrasebook.Text.Units

/-!
# What stored units keep of a text

UTF-16 keeps every text. Of a stored text only the part before the first U+0000
or U+FFFF is read back, because the units of these two end a text. A text that
was read from units has neither, and fits into as many units again.
-/

namespace Phrasebook.Text

/-! ## Surrogates -/

theorem isHighSurrogate_iff (u : UInt16) :
    isHighSurrogate u = true ↔ 0xD800 ≤ u.toNat ∧ u.toNat < 0xDC00 := by
  simp [isHighSurrogate, UInt16.le_iff_toNat_le, UInt16.lt_iff_toNat_lt]

theorem isLowSurrogate_iff (u : UInt16) :
    isLowSurrogate u = true ↔ 0xDC00 ≤ u.toNat ∧ u.toNat < 0xE000 := by
  simp [isLowSurrogate, UInt16.le_iff_toNat_le, UInt16.lt_iff_toNat_lt]

theorem toNat_lt_or_le (c : Char) :
    c.toNat < 0xD800 ∨ 0xE000 ≤ c.toNat ∧ c.toNat < 0x110000 := by
  have valid := c.valid
  simp only [UInt32.isValidChar, Nat.isValidChar] at valid
  change c.val.toNat < 0xD800 ∨ 0xE000 ≤ c.val.toNat ∧ c.val.toNat < 0x110000
  omega

theorem decodeUnits_cons_of_single {u : UInt16} (single : isHighSurrogate u = false)
    (rest : List UInt16) : decodeUnits (u :: rest) = unitChar u :: decodeUnits rest := by
  cases rest with
  | nil => rfl
  | cons v more => simp [decodeUnits, single]

theorem decodeUnits_pair {high low : UInt16} (opens : isHighSurrogate high = true)
    (closes : isLowSurrogate low = true) (rest : List UInt16) :
    decodeUnits (high :: low :: rest) = pairChar high low :: decodeUnits rest := by
  simp [decodeUnits, opens, closes]

theorem charUnits_cases (c : Char) :
    (∃ u, charUnits c = [u] ∧ isHighSurrogate u = false ∧ isLowSurrogate u = false ∧
      unitChar u = c) ∨
    ∃ high low, charUnits c = [high, low] ∧ isHighSurrogate high = true ∧
      isLowSurrogate low = true ∧ pairChar high low = c := by
  have range := toNat_lt_or_le c
  by_cases small : c.toNat < 0x10000
  · have value : c.toNat.toUInt16.toNat = c.toNat := by
      simp only [Nat.toUInt16, UInt16.toNat_ofNat']
      omega
    have notHigh : isHighSurrogate c.toNat.toUInt16 = false := by
      rw [Bool.eq_false_iff, Ne, isHighSurrogate_iff, value]
      omega
    have notLow : isLowSurrogate c.toNat.toUInt16 = false := by
      rw [Bool.eq_false_iff, Ne, isLowSurrogate_iff, value]
      omega
    have alone : unitChar c.toNat.toUInt16 = c := by
      simp [unitChar, notHigh, notLow, value]
    exact .inl ⟨_, if_pos small, notHigh, notLow, alone⟩
  · have high : (0xD800 + (c.toNat - 0x10000) / 0x400).toUInt16.toNat =
        0xD800 + (c.toNat - 0x10000) / 0x400 := by
      simp only [Nat.toUInt16, UInt16.toNat_ofNat']
      omega
    have low : (0xDC00 + (c.toNat - 0x10000) % 0x400).toUInt16.toNat =
        0xDC00 + (c.toNat - 0x10000) % 0x400 := by
      simp only [Nat.toUInt16, UInt16.toNat_ofNat']
      omega
    have opens := (isHighSurrogate_iff _).mpr (by rw [high]; omega)
    have closes := (isLowSurrogate_iff _).mpr (by rw [low]; omega)
    have code : 0x10000 + (0xD800 + (c.toNat - 0x10000) / 0x400 - 0xD800) * 0x400 +
        (0xDC00 + (c.toNat - 0x10000) % 0x400 - 0xDC00) = c.toNat := by
      omega
    refine .inr ⟨_, _, if_neg small, opens, closes, ?_⟩
    rw [pairChar, high, low, code, Char.ofNat_toNat]

theorem decodeUnits_charUnits_append (c : Char) (rest : List UInt16) :
    decodeUnits (charUnits c ++ rest) = c :: decodeUnits rest := by
  rcases charUnits_cases c with ⟨u, written, notHigh, -, means⟩ | ⟨high, low, written, opens,
    closes, means⟩
  · rw [written, List.singleton_append, decodeUnits_cons_of_single notHigh, means]
  · rw [written, List.cons_append, List.singleton_append, decodeUnits_pair opens closes, means]

theorem decodeUnits_flatMap_charUnits (chars : List Char) :
    decodeUnits (chars.flatMap charUnits) = chars := by
  induction chars with
  | nil => rfl
  | cons c rest ih => rw [List.flatMap_cons, decodeUnits_charUnits_append, ih]

/-! ## Where a stored text ends -/

def isStorable (c : Char) : Bool := c ≠ '\x00' && c ≠ '\uFFFF'

/-- The part of a text before the first character that it cannot be stored with. -/
def storablePart (text : String) : String := String.ofList (text.toList.takeWhile isStorable)

theorem invertUnit_eq_iff {u v : UInt16} : invertUnit u = v ↔ u = invertUnit v := by
  constructor
  · intro same
    rw [← same, invertUnit_invertUnit]
  · intro same
    rw [same, invertUnit_invertUnit]

theorem isTextUnit_invertUnit (u : UInt16) :
    isTextUnit (invertUnit u) = (u ≠ 0 && u ≠ 0xFFFF) := by
  have zero : invertUnit u = 0 ↔ u = 0xFFFF := invertUnit_eq_iff
  have ones : invertUnit u = 0xFFFF ↔ u = 0 := invertUnit_eq_iff
  simp [isTextUnit, zero, ones, Bool.and_comm]

theorem isTextUnit_of_mem_charUnits {c : Char} (storable : isStorable c = true) {u : UInt16}
    (member : u ∈ charUnits c) : isTextUnit (invertUnit u) = true := by
  have range := toNat_lt_or_le c
  have apart : c.toNat ≠ 0 ∧ c.toNat ≠ 0xFFFF := by
    simp only [isStorable, Bool.and_eq_true, decide_eq_true_eq] at storable
    exact ⟨fun zero => storable.1 (Char.toNat_inj.mp zero),
      fun last => storable.2 (Char.toNat_inj.mp last)⟩
  have value : u.toNat ≠ 0 ∧ u.toNat ≠ 0xFFFF := by
    unfold charUnits at member
    split at member
    next small =>
      rw [List.mem_singleton.mp member, Nat.toUInt16, UInt16.toNat_ofNat']
      omega
    next =>
      simp only [List.mem_cons, List.not_mem_nil, or_false] at member
      rcases member with rfl | rfl <;> rw [Nat.toUInt16, UInt16.toNat_ofNat'] <;> omega
  rw [isTextUnit_invertUnit, Bool.and_eq_true, decide_eq_true_eq, decide_eq_true_eq]
  exact ⟨fun zero => value.1 (congrArg UInt16.toNat zero),
    fun last => value.2 (congrArg UInt16.toNat last)⟩

theorem takeWhile_charUnits_append {c : Char} (ends : isStorable c = false)
    (rest : List UInt16) :
    (charUnits c ++ rest).takeWhile (isTextUnit ∘ invertUnit) = [] := by
  simp only [isStorable, Bool.and_eq_false_iff, decide_eq_false_iff_not, Decidable.not_not] at ends
  rcases ends with rfl | rfl <;> rfl

/-- Only the units of the two characters that cannot be stored end a text. -/
theorem takeWhile_flatMap_charUnits (chars : List Char) :
    (chars.flatMap charUnits).takeWhile (isTextUnit ∘ invertUnit) =
      (chars.takeWhile isStorable).flatMap charUnits := by
  induction chars with
  | nil => rfl
  | cons c rest ih =>
      cases storable : isStorable c with
      | true =>
          have kept : ∀ u ∈ charUnits c, (isTextUnit ∘ invertUnit) u = true :=
            fun u member => isTextUnit_of_mem_charUnits storable member
          rw [List.flatMap_cons, List.takeWhile_append_of_pos kept, ih,
            List.takeWhile_cons_of_pos storable, List.flatMap_cons]
      | false =>
          rw [List.flatMap_cons, takeWhile_charUnits_append storable,
            List.takeWhile_cons_of_neg (by rw [storable]; decide), List.flatMap_nil]

theorem map_invertUnit_map_invertUnit (units : List UInt16) :
    (units.map invertUnit).map invertUnit = units := by
  have restored : invertUnit ∘ invertUnit = id := funext invertUnit_invertUnit
  rw [List.map_map, restored, List.map_id]

theorem decodeStored_encodeStored (text : String) :
    decodeStored (encodeStored text) = storablePart text := by
  rw [decodeStored, encodeStored, List.takeWhile_map, encodeUnits, takeWhile_flatMap_charUnits,
    map_invertUnit_map_invertUnit, decodeUnits_flatMap_charUnits, storablePart]

/-! ## Texts that were stored -/

theorem toNat_ofNat_of_valid {n : Nat} (valid : n.isValidChar) : (Char.ofNat n).toNat = n := by
  rw [Char.ofNat, dif_pos valid]
  rfl

theorem toNat_unitChar {u : UInt16} (notHigh : isHighSurrogate u = false)
    (notLow : isLowSurrogate u = false) : (unitChar u).toNat = u.toNat := by
  have bound := u.toNat_lt
  have valid : u.toNat.isValidChar := by
    rw [Bool.eq_false_iff, Ne, isHighSurrogate_iff] at notHigh
    rw [Bool.eq_false_iff, Ne, isLowSurrogate_iff] at notLow
    simp only [Nat.isValidChar]
    omega
  rw [unitChar, notHigh, notLow]
  exact toNat_ofNat_of_valid valid

theorem unitChar_eq_or (u : UInt16) : unitChar u = replacement ∨ (unitChar u).toNat = u.toNat := by
  cases single : isHighSurrogate u || isLowSurrogate u with
  | true => exact .inl (if_pos single)
  | false =>
      rw [Bool.or_eq_false_iff] at single
      exact .inr (toNat_unitChar single.1 single.2)

theorem toNat_pairChar {high low : UInt16} (opens : isHighSurrogate high = true)
    (closes : isLowSurrogate low = true) :
    (pairChar high low).toNat =
      0x10000 + (high.toNat - 0xD800) * 0x400 + (low.toNat - 0xDC00) := by
  rw [isHighSurrogate_iff] at opens
  rw [isLowSurrogate_iff] at closes
  apply toNat_ofNat_of_valid
  simp only [Nat.isValidChar]
  omega

theorem lt_toNat_pairChar {high low : UInt16} (opens : isHighSurrogate high = true)
    (closes : isLowSurrogate low = true) : 0xFFFF < (pairChar high low).toNat := by
  rw [toNat_pairChar opens closes]
  omega

theorem isStorable_of_toNat {c : Char} (first : c.toNat ≠ 0) (last : c.toNat ≠ 0xFFFF) :
    isStorable c = true := by
  simp only [isStorable, Bool.and_eq_true, decide_eq_true_eq]
  exact ⟨fun same => first (congrArg Char.toNat same), fun same => last (congrArg Char.toNat same)⟩

theorem isStorable_pairChar {high low : UInt16} (opens : isHighSurrogate high = true)
    (closes : isLowSurrogate low = true) : isStorable (pairChar high low) = true := by
  have beyond := lt_toNat_pairChar opens closes
  exact isStorable_of_toNat (Nat.ne_of_gt (Nat.zero_lt_of_lt beyond)) (Nat.ne_of_gt beyond)

theorem isStorable_unitChar {u : UInt16} (kept : isTextUnit (invertUnit u) = true) :
    isStorable (unitChar u) = true := by
  rw [isTextUnit_invertUnit, Bool.and_eq_true, decide_eq_true_eq, decide_eq_true_eq] at kept
  rcases unitChar_eq_or u with same | value
  · rw [same]
    rfl
  · apply isStorable_of_toNat
    · exact fun zero => kept.1 (UInt16.toNat_inj.mp (value.symm.trans zero))
    · exact fun ones => kept.2 (UInt16.toNat_inj.mp (value.symm.trans ones))

theorem length_charUnits_unitChar (u : UInt16) : (charUnits (unitChar u)).length = 1 := by
  have small : (unitChar u).toNat < 0x10000 := by
    rcases unitChar_eq_or u with same | value
    · rw [same]
      decide
    · rw [value]
      exact u.toNat_lt
  rw [charUnits, if_pos small, List.length_singleton]

theorem length_charUnits_le (c : Char) : (charUnits c).length ≤ 2 := by
  unfold charUnits
  split <;> simp

theorem isStorable_of_mem_decodeUnits {units : List UInt16}
    (kept : ∀ u ∈ units, isTextUnit (invertUnit u) = true) {c : Char}
    (member : c ∈ decodeUnits units) : isStorable c = true := by
  fun_induction decodeUnits units with
  | case1 => cases member
  | case2 u =>
      rw [List.mem_singleton.mp member]
      exact isStorable_unitChar (kept u List.mem_cons_self)
  | case3 u v rest pair ih =>
      rw [Bool.and_eq_true] at pair
      rcases List.mem_cons.mp member with same | later
      · exact same ▸ isStorable_pairChar pair.1 pair.2
      · exact ih (fun w among => kept w (.tail u (.tail v among))) later
  | case4 u v rest _ ih =>
      rcases List.mem_cons.mp member with same | later
      · exact same ▸ isStorable_unitChar (kept u List.mem_cons_self)
      · exact ih (fun w among => kept w (.tail u among)) later

/-- Writing a text again takes no more units than it was read from. -/
theorem length_flatMap_decodeUnits_le (units : List UInt16) :
    ((decodeUnits units).flatMap charUnits).length ≤ units.length := by
  fun_induction decodeUnits units with
  | case1 => exact Nat.le_refl _
  | case2 u => simp [length_charUnits_unitChar]
  | case3 u v rest _ ih =>
      have two := length_charUnits_le (pairChar u v)
      simp only [List.flatMap_cons, List.length_append, List.length_cons]
      omega
  | case4 u v rest _ ih =>
      simp only [List.flatMap_cons, List.length_append, List.length_cons,
        length_charUnits_unitChar] at ih ⊢
      omega

theorem isStorable_of_mem_decodeStored {stored : List UInt16} {c : Char}
    (member : c ∈ (decodeStored stored).toList) : isStorable c = true := by
  rw [decodeStored, String.toList_ofList] at member
  apply isStorable_of_mem_decodeUnits _ member
  intro u among
  rcases List.mem_map.mp among with ⟨v, taken, rfl⟩
  rw [invertUnit_invertUnit]
  exact List.mem_takeWhile_imp taken

theorem length_encodeUnits_decodeStored_le (stored : List UInt16) :
    (encodeUnits (decodeStored stored)).length ≤ stored.length := by
  have front := (List.takeWhile_sublist isTextUnit (l := stored)).length_le
  have units := length_flatMap_decodeUnits_le ((stored.takeWhile isTextUnit).map invertUnit)
  rw [List.length_map] at units
  rw [encodeUnits, decodeStored, String.toList_ofList]
  exact Nat.le_trans units front

theorem length_unitsOfBytes_le (bytes : List UInt8) :
    2 * (unitsOfBytes bytes).length ≤ bytes.length := by
  fun_induction unitsOfBytes bytes with
  | case1 low high rest ih =>
      simp only [List.length_cons]
      omega
  | case2 => simp

end Phrasebook.Text

import Phrasebook.Text.Latin

/-!
# Text in single bytes

Text that goes through single bytes comes back with a question mark for each
character above U+00FF, and otherwise unchanged.
-/

namespace Phrasebook.Text

open Bytes

def isLatin (c : Char) : Bool := c.toNat < 256

theorem isLatin_widenByte (b : UInt8) : isLatin (widenByte b) = true := decide_eq_true b.toNat_lt

theorem isLatin_of_mem_widen {bytes : List UInt8} {c : Char} (member : c ∈ (widen bytes).toList) :
    isLatin c = true := by
  rw [toList_widen] at member
  rcases List.mem_map.mp member with ⟨b, -, rfl⟩
  exact isLatin_widenByte b

/-- The text with a question mark for each character that has no single byte. -/
def singleByte (text : String) : String :=
  text.map fun c => if isLatin c then c else '?'

theorem widen_append (front rest : List UInt8) :
    widen (front ++ rest) = widen front ++ widen rest := by
  apply String.toList_inj.mp
  simp

theorem widenByte_inj {a b : UInt8} : widenByte a = widenByte b ↔ a = b := by
  constructor
  · intro same
    rw [← narrowChar_widenByte a, same, narrowChar_widenByte]
  · intro same
    rw [same]

theorem widenByte_narrowChar (c : Char) :
    widenByte (narrowChar c) = if isLatin c then c else '?' := by
  unfold narrowChar
  by_cases latin : c.toNat < 256
  · have value : c.toUInt8.toNat = c.toNat := Nat.mod_eq_of_lt latin
    rw [if_pos latin, isLatin, if_pos (by simpa using latin)]
    apply Char.toNat_inj.mp
    rw [toNat_widenByte, value]
  · rw [if_neg latin, isLatin, if_neg (by simpa using latin)]
    rfl

@[simp] theorem widen_narrow (text : String) : widen (narrow text) = singleByte text := by
  apply String.toList_inj.mp
  simp [narrow, singleByte, widenByte_narrowChar, Function.comp_def]

theorem singleByte_eq_self {text : String} (latin : ∀ c ∈ text.toList, isLatin c = true) :
    singleByte text = text := by
  apply String.toList_inj.mp
  rw [singleByte, String.toList_map]
  calc
    text.toList.map (fun c => if isLatin c then c else '?') = text.toList.map id :=
      List.map_congr_left fun c member => if_pos (latin c member)
    _ = text.toList := List.map_id _

theorem isLatin_of_mem_singleByte {text : String} {c : Char}
    (member : c ∈ (singleByte text).toList) : isLatin c = true := by
  rw [← widen_narrow] at member
  exact isLatin_of_mem_widen member

theorem singleByte_eq_self_iff {text : String} :
    singleByte text = text ↔ ∀ c ∈ text.toList, isLatin c = true := by
  refine ⟨?_, singleByte_eq_self⟩
  intro same c member
  rw [← same] at member
  exact isLatin_of_mem_singleByte member

end Phrasebook.Text

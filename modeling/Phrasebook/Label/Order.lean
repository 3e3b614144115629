import Phrasebook.Bytes.Marks
import Phrasebook.Text.Utf8

/-!
# Labels and their order

Labels that differ only in the case of ASCII letters are the same label. Their
order is that of their UTF-8 bytes once those letters are lower case.
-/

namespace Phrasebook.Label

/-- The characters of a label with ASCII letters in lower case. -/
def fold (label : String) : List Char := label.toList.map Char.toLower

/-- Folded labels are hashed as text. -/
instance hashableFolded : Hashable (List Char) := ⟨fun chars => hash (String.ofList chars)⟩

def same (a b : String) : Bool := fold a == fold b

/-- What labels are ordered by: their UTF-8 bytes with ASCII letters in lower case. -/
def sortKey (label : String) : List UInt8 := (Text.utf8 label).map Bytes.foldCase

def order (a b : String) : Ordering := compare (sortKey a) (sortKey b)

def startsWith (start label : String) : Bool := start.toList.isPrefixOf label.toList

theorem same_iff {a b : String} : same a b = true ↔ fold a = fold b := by
  simp [same]

@[simp] theorem same_refl (a : String) : same a a = true := same_iff.mpr rfl

theorem same_comm (a b : String) : same a b = same b a := by
  rw [Bool.eq_iff_iff, same_iff, same_iff]
  exact eq_comm

theorem same_trans {a b c : String} (first : same a b = true) (second : same b c = true) :
    same a c = true :=
  same_iff.mpr ((same_iff.mp first).trans (same_iff.mp second))

instance : Std.TransCmp order where
  eq_swap := Std.OrientedOrd.eq_swap
  isLE_trans first second := Std.TransOrd.isLE_trans first second

end Phrasebook.Label

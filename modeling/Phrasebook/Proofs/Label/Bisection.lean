import Phrasebook.Label.Index
import Phrasebook.Proofs.Label.Order

/-!
# Finding labels by bisection

What is found has the label that is looked for, whatever the order of the slots
(`bisect_sound`). In slots that ascend, a label that is there is also found
(`bisect_complete`). For an index built over a list of labels both together say
that a search fails exactly if the list has no such label.
-/

namespace Phrasebook.Label.Index

/-- Every slot is at most level with those after it. -/
def Ascending (slots : Array Slot) : Prop :=
  slots.toList.Pairwise fun a b => (order a.label b.label).isLE

theorem Ascending.isLE {slots : Array Slot} (ascending : Ascending slots) {i j : Nat} (le : i ≤ j)
    (inside : j < slots.size) : (order slots[i].label slots[j].label).isLE = true := by
  rcases Nat.lt_or_eq_of_le le with lt | rfl
  · have pairwise := List.pairwise_iff_getElem.mp ascending i j
      (by simpa using Nat.lt_trans lt inside) (by simpa using inside) lt
    simpa using pairwise
  · rw [order_eq_iff.mpr (same_refl _)]
    rfl

theorem bisect_sound {slots : Array Slot} {label : String} {low high position : Nat}
    {bound : high ≤ slots.size} (found : bisect slots label low high bound = some position) :
    ∃ slot ∈ slots, slot.position = position ∧ same slot.label label = true := by
  fun_induction bisect slots label low high bound with
  | case1 low high bound nonempty middle inside level =>
      cases found
      exact ⟨slots[middle], Array.getElem_mem inside, rfl, order_eq_iff.mp level⟩
  | case2 low high bound nonempty middle inside before ih => exact ih found
  | case3 low high bound nonempty middle inside after ih => exact ih found
  | case4 => cases found

theorem bisect_complete {slots : Array Slot} (ascending : Ascending slots) {label : String}
    {low high i : Nat} {bound : high ≤ slots.size} (above : low ≤ i) (below : i < high)
    (present : order slots[i].label label = .eq) :
    (bisect slots label low high bound).isSome = true := by
  fun_induction bisect slots label low high bound with
  | case1 => rfl
  | case2 low high bound nonempty middle inside before ih =>
      have beyond : middle < i := by
        apply Nat.lt_of_not_le
        intro le
        have contrary := Std.TransCmp.lt_of_isLE_of_lt (ascending.isLE le inside) before
        rw [present] at contrary
        cases contrary
      exact ih beyond below present
  | case3 low high bound nonempty middle inside after ih =>
      have within : i < middle := by
        apply Nat.lt_of_not_le
        intro le
        have contrary := Std.TransCmp.lt_of_lt_of_isLE (Std.OrientedCmp.gt_iff_lt.mp after)
          (ascending.isLE le (Nat.lt_of_lt_of_le below bound))
        rw [Std.OrientedCmp.eq_symm present] at contrary
        cases contrary
      exact ih above within present
  | case4 low high bound empty => exact absurd (Nat.lt_of_le_of_lt above below) empty

/-! ## An index over a list -/

theorem mem_build_iff {labels : List String} {slot : Slot} :
    slot ∈ (build labels).slots ↔ labels[slot.position]? = some slot.label := by
  rw [← Array.mem_toList_iff, (perm_build labels).mem_iff]
  simp only [slotsOf, List.mem_map, Prod.exists, List.mem_zipIdx_iff_getElem?]
  constructor
  · rintro ⟨label, position, there, rfl⟩
    exact there
  · intro there
    exact ⟨slot.label, slot.position, there, rfl⟩

theorem same_of_find?_build {labels : List String} {label : String} {position : Nat}
    (found : (build labels).find? label = some position) :
    ∃ l, labels[position]? = some l ∧ same l label = true := by
  rcases bisect_sound found with ⟨slot, member, rfl, level⟩
  exact ⟨slot.label, mem_build_iff.mp member, level⟩

theorem exists_find?_build {labels : List String} {label l : String} (member : l ∈ labels)
    (level : same l label = true) : ∃ position, (build labels).find? label = some position := by
  rcases List.mem_iff_getElem?.mp member with ⟨n, there⟩
  have slot : { label := l, position := n } ∈ (build labels).slots := mem_build_iff.mpr there
  rcases Array.mem_iff_getElem.mp slot with ⟨i, inside, eq⟩
  apply Option.isSome_iff_exists.mp
  apply bisect_complete (pairwise_build labels) (Nat.zero_le i) inside
  rw [eq]
  exact order_eq_iff.mpr level

end Phrasebook.Label.Index

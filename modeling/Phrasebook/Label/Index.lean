import Phrasebook.Label.Order

/-!
# Label indexes

An index over a list of labels holds their positions in label order and finds
the position of a label by bisection. It expects labels that differ up to ASCII
case; under equal labels it finds one of the positions.
-/

namespace Phrasebook.Label

structure Slot where
  label : String
  position : Nat
  deriving DecidableEq, Repr

structure Index where
  slots : Array Slot
  deriving DecidableEq, Repr

namespace Index

def slotsOf (labels : List String) : List Slot :=
  labels.zipIdx.map fun (label, position) => { label, position }

def build (labels : List String) : Index where
  slots := ((slotsOf labels).mergeSort fun a b => (order a.label b.label).isLE).toArray

/-- Looks a label up among the slots from `low` up to, not including, `high`. -/
def bisect (slots : Array Slot) (label : String) (low high : Nat) (bound : high ≤ slots.size) :
    Option Nat :=
  if nonempty : low < high then
    let middle := low + (high - low) / 2
    have inside : middle < slots.size := by omega
    match order slots[middle].label label with
    | .eq => some slots[middle].position
    | .lt => bisect slots label (middle + 1) high bound
    | .gt => bisect slots label low middle (by omega)
  else none
termination_by high - low

def find? (index : Index) (label : String) : Option Nat :=
  bisect index.slots label 0 index.slots.size (Nat.le_refl _)

def positions (index : Index) : List Nat := index.slots.toList.map Slot.position

def size (index : Index) : Nat := index.slots.size

def isEmpty (index : Index) : Bool := index.slots.isEmpty

@[simp] theorem length_slotsOf (labels : List String) :
    (slotsOf labels).length = labels.length := by
  simp [slotsOf]

theorem perm_build (labels : List String) :
    (build labels).slots.toList.Perm (slotsOf labels) := by
  simpa [build] using List.mergeSort_perm _ _

@[simp] theorem size_build (labels : List String) : (build labels).size = labels.length := by
  have := (perm_build labels).length_eq
  simpa [size] using this

theorem perm_positions_build (labels : List String) :
    (build labels).positions.Perm (List.range labels.length) := by
  have mapped := (perm_build labels).map Slot.position
  have inOrder : (slotsOf labels).map Slot.position = List.range labels.length := by
    simp [slotsOf, List.map_map, Function.comp_def, List.zipIdx_map_snd, List.range_eq_range']
  rwa [inOrder] at mapped

theorem pairwise_build (labels : List String) :
    (build labels).slots.toList.Pairwise fun a b => (order a.label b.label).isLE := by
  simp only [build]
  refine List.pairwise_mergeSort (fun a b c hab hbc => ?_) (fun a b => ?_) _
  · exact Std.TransCmp.isLE_trans hab hbc
  · have swapped : order b.label a.label = (order a.label b.label).swap := Std.OrientedCmp.eq_swap
    rw [swapped]
    cases order a.label b.label <;> rfl

end Index

end Phrasebook.Label

import Phrasebook.Proofs.FirstUnderLabel
import Phrasebook.Proofs.Label.Bisection

/-!
# Indexes over distinct labels

Where no two labels are the same, those of an index ascend without a tie. There
is only one such sequence, whatever the order in which the labels came, and a
search finds the one position that a label has.
-/

namespace Phrasebook.Label.Index

variable {labels : List String}

/-! ## The labels along an index -/

theorem map_label_slotsOf (labels : List String) : (slotsOf labels).map Slot.label = labels := by
  simp [slotsOf, List.map_map, Function.comp_def, List.zipIdx_map_fst]

theorem perm_labels_build (labels : List String) :
    ((build labels).slots.toList.map Slot.label).Perm labels := by
  have sorted := (perm_build labels).map Slot.label
  rwa [map_label_slotsOf] at sorted

theorem getElem?_positions_build (labels : List String) :
    (build labels).positions.map (fun position => labels[position]?) =
      ((build labels).slots.toList.map Slot.label).map some := by
  rw [positions, List.map_map, List.map_map]
  exact List.map_congr_left fun slot member => mem_build_iff.mp (Array.mem_toList_iff.mp member)

theorem find?_build_eq_none_iff {query : String} :
    (build labels).find? query = none ↔ ∀ l ∈ labels, same l query = false := by
  constructor
  · intro missed l member
    rw [Bool.eq_false_iff]
    intro level
    obtain ⟨position, found⟩ := exists_find?_build member level
    rw [missed] at found
    cases found
  · intro absent
    cases found : (build labels).find? query with
    | none => rfl
    | some position =>
        obtain ⟨l, there, level⟩ := same_of_find?_build found
        rw [absent l (List.mem_of_getElem? there)] at level
        cases level

/-! ## Distinct labels -/

section Distinct

variable (distinct : labels.Pairwise fun a b => same a b = false)

include distinct

theorem apart_build :
    (build labels).slots.toList.Pairwise fun a b => same a.label b.label = false := by
  have sorted := ((perm_labels_build labels).pairwise_iff
    fun {a b} apart => (same_comm b a).trans apart).mpr distinct
  exact List.pairwise_map.mp sorted

/-- Level labels are the same, so that distinct ones are never level. -/
theorem ascending_build :
    (build labels).slots.toList.Pairwise fun a b => order a.label b.label = .lt := by
  refine ((pairwise_build labels).and (apart_build distinct)).imp ?_
  intro a b ⟨le, apart⟩
  cases level : order a.label b.label with
  | lt => rfl
  | eq =>
      rw [order_eq_iff.mp level] at apart
      cases apart
  | gt =>
      rw [level] at le
      cases le

theorem ascending_positions_build :
    (build labels).positions.Pairwise fun i j =>
      ∃ a b, labels[i]? = some a ∧ labels[j]? = some b ∧ order a b = .lt := by
  refine List.pairwise_map.mpr (List.Pairwise.imp_of_mem ?_ (ascending_build distinct))
  intro first second firstSlot secondSlot before
  exact ⟨first.label, second.label, mem_build_iff.mp (Array.mem_toList_iff.mp firstSlot),
    mem_build_iff.mp (Array.mem_toList_iff.mp secondSlot), before⟩

theorem ascending_labels_build :
    ((build labels).slots.toList.map Slot.label).Pairwise fun a b => order a b = .lt :=
  List.pairwise_map.mpr (ascending_build distinct)

theorem labels_build_eq_of_perm {others : List String}
    (apart : others.Pairwise fun a b => same a b = false) (rearranged : others.Perm labels) :
    (build others).slots.toList.map Slot.label = (build labels).slots.toList.map Slot.label := by
  have named : ((build others).slots.toList.map Slot.label).Perm
      ((build labels).slots.toList.map Slot.label) :=
    (perm_labels_build others).trans (rearranged.trans (perm_labels_build labels).symm)
  refine named.eq_of_pairwise ?_ (ascending_labels_build apart) (ascending_labels_build distinct)
  intro a b _ _ before behind
  have swapped : order b a = (order a b).swap := Std.OrientedCmp.eq_swap
  rw [before, behind] at swapped
  cases swapped

theorem position_unique {i j : Nat} {a b : String}
    (first : labels[i]? = some a) (second : labels[j]? = some b)
    (level : same a b = true) : i = j := by
  have apart := List.pairwise_iff_getElem.mp distinct
  obtain ⟨inside, rfl⟩ := List.getElem?_eq_some_iff.mp first
  obtain ⟨within, rfl⟩ := List.getElem?_eq_some_iff.mp second
  rcases Nat.lt_trichotomy i j with before | same | behind
  · exact absurd level (Bool.eq_false_iff.mp (apart i j inside within before))
  · exact same
  · rw [same_comm] at level
    exact absurd level (Bool.eq_false_iff.mp (apart j i within inside behind))

theorem find?_build_eq_some_iff {query : String} {position : Nat} :
    (build labels).find? query = some position ↔
      ∃ l, labels[position]? = some l ∧ same l query = true := by
  refine ⟨same_of_find?_build, ?_⟩
  rintro ⟨l, there, level⟩
  obtain ⟨other, found⟩ := exists_find?_build (List.mem_of_getElem? there) level
  obtain ⟨l', inside, level'⟩ := same_of_find?_build found
  have both : same l l' = true := same_trans level ((same_comm query l').trans level')
  rw [found, position_unique distinct there inside both]

end Distinct

/-! ## Indexes over entries -/

/-- The index names every position once, along ascending labels, and tells the one of each label. -/
structure Indexes (index : Index) (entries : List Entry) : Prop where
  positions : index.positions.Perm (List.range entries.length)
  ascending : index.positions.Pairwise fun i j =>
    ∃ a b, entries[i]? = some a ∧ entries[j]? = some b ∧ order a.label b.label = .lt
  found : ∀ query position, index.find? query = some position ↔
    ∃ e, entries[position]? = some e ∧ same e.label query = true
  missed : ∀ query, index.find? query = none ↔ ∀ e ∈ entries, same e.label query = false

variable {entries others : List Entry}

theorem getElem?_labels_eq_some_iff {position : Nat} {label : String} :
    (entries.map Entry.label)[position]? = some label ↔
      ∃ e, entries[position]? = some e ∧ e.label = label := by
  rw [List.getElem?_map, Option.map_eq_some_iff]

theorem indexes_build (distinct : DistinctLabels entries) :
    (build (entries.map Entry.label)).Indexes entries where
  positions := by
    have named := perm_positions_build (entries.map Entry.label)
    rwa [List.length_map] at named
  ascending := by
    refine (ascending_positions_build (List.pairwise_map.mpr distinct)).imp ?_
    rintro i j ⟨_, _, first, second, before⟩
    obtain ⟨a, there, rfl⟩ := getElem?_labels_eq_some_iff.mp first
    obtain ⟨b, beyond, rfl⟩ := getElem?_labels_eq_some_iff.mp second
    exact ⟨a, b, there, beyond, before⟩
  found query position := by
    rw [find?_build_eq_some_iff (List.pairwise_map.mpr distinct)]
    simp only [getElem?_labels_eq_some_iff]
    constructor
    · rintro ⟨_, ⟨e, there, rfl⟩, level⟩
      exact ⟨e, there, level⟩
    · rintro ⟨e, there, level⟩
      exact ⟨e.label, ⟨e, there, rfl⟩, level⟩
  missed query := by
    rw [find?_build_eq_none_iff, List.forall_mem_map]

theorem Indexes.bind_find?_eq_some_iff {index : Index} (indexes : index.Indexes entries)
    {query : String} {e : Entry} :
    (index.find? query).bind (entries[·]?) = some e ↔
      e ∈ entries ∧ same e.label query = true := by
  rw [Option.bind_eq_some_iff]
  constructor
  · rintro ⟨position, found, there⟩
    obtain ⟨other, inside, level⟩ := (indexes.found query position).mp found
    rw [there] at inside
    cases inside
    exact ⟨List.mem_of_getElem? there, level⟩
  · rintro ⟨member, level⟩
    obtain ⟨position, there⟩ := List.mem_iff_getElem?.mp member
    exact ⟨position, (indexes.found query position).mpr ⟨e, there, level⟩, there⟩

theorem distinctLabels_of_perm (distinct : DistinctLabels entries)
    (rearranged : others.Perm entries) : DistinctLabels others :=
  (rearranged.pairwise_iff fun {a b} apart => (same_comm b.label a.label).trans apart).mpr distinct

theorem labels_positions_build (entries : List Entry) :
    (build (entries.map Entry.label)).positions.map
        (fun position => entries[position]?.map Entry.label) =
      ((build (entries.map Entry.label)).slots.toList.map Slot.label).map some := by
  rw [← getElem?_positions_build]
  simp only [List.getElem?_map]

/--
The index over entries with distinct labels names each position once, along
ascending labels, and finds the entry of every label. When the entries come in
another order, the labels along the index and the entries that are found remain.
-/
theorem build_of_distinct (distinct : DistinctLabels entries) :
    (build (entries.map Entry.label)).Indexes entries ∧
      ∀ others : List Entry, others.Perm entries →
        (build (others.map Entry.label)).positions.map
            (fun position => others[position]?.map Entry.label) =
          (build (entries.map Entry.label)).positions.map
            (fun position => entries[position]?.map Entry.label) ∧
        ∀ query, ((build (others.map Entry.label)).find? query).bind (others[·]?) =
          ((build (entries.map Entry.label)).find? query).bind (entries[·]?) := by
  have indexes := indexes_build distinct
  refine ⟨indexes, ?_⟩
  intro others rearranged
  have apart := distinctLabels_of_perm distinct rearranged
  constructor
  · rw [labels_positions_build, labels_positions_build,
      labels_build_eq_of_perm (List.pairwise_map.mpr distinct) (List.pairwise_map.mpr apart)
        (rearranged.map Entry.label)]
  · intro query
    apply Option.ext
    intro e
    rw [(indexes_build apart).bind_find?_eq_some_iff, indexes.bind_find?_eq_some_iff,
      rearranged.mem_iff]

/-- The start of a label is no label, and the case of letters counts beyond ASCII. -/
theorem build_of_distinct_threeEntries :
    let entries : List Entry := [{ label := "GUI:OK" }, { label := "é" }, { label := "gui" }]
    let others : List Entry := [{ label := "é" }, { label := "gui" }, { label := "GUI:OK" }]
    DistinctLabels entries ∧ others.Perm entries ∧
      (build (entries.map Entry.label)).find? "Gui:ok" = some 0 ∧
      (build (entries.map Entry.label)).find? "GUI:" = none ∧
      (build (entries.map Entry.label)).find? "É" = none ∧
      ((build (others.map Entry.label)).find? "GUI").bind (others[·]?) =
        ((build (entries.map Entry.label)).find? "GUI").bind (entries[·]?) := by
  intro entries others
  have distinct : DistinctLabels entries := by decide
  have rearranged : others.Perm entries := by decide
  obtain ⟨indexes, rest⟩ := build_of_distinct distinct
  refine ⟨distinct, rearranged, ?_, ?_, ?_, (rest others rearranged).2 "GUI"⟩
  · exact (indexes.found _ _).mpr ⟨_, rfl, by decide⟩
  · exact (indexes.missed _).mpr (by decide)
  · exact (indexes.missed _).mpr (by decide)

end Phrasebook.Label.Index

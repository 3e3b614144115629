import Phrasebook.Proofs.Lookup

/-!
# Tables in label order

The index of a table names every position once. Where labels are distinct they
ascend along it, so that a walk along the index shows each entry once, in label
order, and so the labels that start with the same characters.
-/

namespace Phrasebook

namespace Table

variable {table : Table}

theorem labels_sorted (table : Table) :
    table.sorted.map Entry.label = table.index.slots.toList.map Label.Slot.label := by
  have walked := Label.Index.labels_positions_build table.entries.toList
  rw [← labelsOf, ← table.index_eq] at walked
  calc
    table.sorted.map Entry.label =
        (table.index.positions.map fun position =>
          table.entries.toList[position]?.map Entry.label).filterMap id := by
      rw [sorted, List.map_filterMap, List.filterMap_map]
      simp
    _ = table.index.slots.toList.map Label.Slot.label := by
      rw [walked, List.filterMap_map, Function.id_comp, List.filterMap_some]

/-- The index is the one list of all positions along which labels ascend. -/
structure WellIndexed (table : Table) : Prop where
  distinct : DistinctLabels table.entries.toList
  positions : table.index.positions.Perm (List.range table.size)
  ascending : table.index.positions.Pairwise fun i j =>
    ∃ a b, table.entries[i]? = some a ∧ table.entries[j]? = some b ∧
      Label.order a.label b.label = .lt

theorem ascending_slots (distinct : DistinctLabels table.entries.toList) :
    table.index.slots.toList.Pairwise fun a b => Label.order a.label b.label = .lt := by
  rw [table.index_eq]
  exact Label.Index.ascending_build (List.pairwise_map.mpr distinct)

theorem wellIndexed_of_distinct (distinct : DistinctLabels table.entries.toList) :
    table.WellIndexed where
  distinct := distinct
  positions := by simpa [size] using (indexes_entries distinct).positions
  ascending := by simpa using (indexes_entries distinct).ascending

/-! ## The entries in label order -/

theorem filterMap_getElem?_range {α : Type} (items : List α) :
    (List.range items.length).filterMap (fun position => items[position]?) = items := by
  induction items with
  | nil => rfl
  | cons first rest ih =>
      rw [List.length_cons, List.range_succ_eq_map, List.filterMap_cons, List.filterMap_map]
      exact congrArg (first :: ·) ih

theorem perm_sorted (table : Table) : table.sorted.Perm table.entries.toList := by
  have named := Label.Index.perm_positions_build (labelsOf table.entries)
  rw [← table.index_eq, labelsOf, List.length_map] at named
  have walked := named.filterMap fun position => table.entries.toList[position]?
  rw [filterMap_getElem?_range] at walked
  simpa [sorted] using walked

theorem ascending_sorted (distinct : DistinctLabels table.entries.toList) :
    table.sorted.Pairwise fun a b => Label.order a.label b.label = .lt := by
  have ascending : (table.sorted.map Entry.label).Pairwise fun a b => Label.order a b = .lt := by
    rw [labels_sorted]
    exact List.pairwise_map.mpr (ascending_slots distinct)
  exact List.pairwise_map.mp ascending

/-! ## Labels that start with the same characters -/

theorem mem_labelsStartingWith_iff {start label : String} :
    label ∈ table.labelsStartingWith start ↔
      label ∈ labelsOf table.entries ∧ start.toList <+: label.toList := by
  rw [labelsStartingWith, List.mem_filter, (table.perm_sorted.map Entry.label).mem_iff,
    Label.startsWith, List.isPrefixOf_iff_prefix]
  rfl

theorem ascending_labelsStartingWith (distinct : DistinctLabels table.entries.toList)
    (start : String) :
    (table.labelsStartingWith start).Pairwise fun a b => Label.order a b = .lt := by
  exact (List.pairwise_map.mpr (ascending_sorted distinct)).filter _

end Table

end Phrasebook

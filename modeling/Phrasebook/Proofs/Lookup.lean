import Mathlib.Data.List.Pairwise
import Phrasebook.Proofs.Label.Sorted
import Phrasebook.Table

/-!
# Looking a label up in a table

In a table whose labels are distinct, the bisection of its index finds the same
entry as a search through the entries one by one (`get?_eq_entryUnder?`), and
that is the only entry with the label.
-/

namespace Phrasebook

theorem DistinctLabels.eq_of_same {entries : List Entry} (distinct : DistinctLabels entries)
    {e other : Entry} (first : e ∈ entries) (second : other ∈ entries)
    (same : Label.same e.label other.label = true) : e = other := by
  have : Std.Symm fun a b : Entry => Label.same a.label b.label = false :=
    ⟨fun a b apart => (Label.same_comm b.label a.label).trans apart⟩
  by_contra differ
  have apart := distinct.forall first second differ
  rw [same] at apart
  cases apart

namespace Table

/-- The first entry of a table that has the label, up to ASCII case. -/
def entryUnder? (table : Table) (label : String) : Option Entry :=
  table.entries.toList.find? fun e => Label.same e.label label

variable {table : Table} {label : String}

theorem same_of_entryUnder? {e : Entry} (found : table.entryUnder? label = some e) :
    e ∈ table.entries.toList ∧ Label.same e.label label = true := by
  unfold entryUnder? at found
  have satisfied := List.find?_some found
  exact ⟨List.mem_of_find?_eq_some found, satisfied⟩

theorem entryUnder?_eq_some_iff (distinct : DistinctLabels table.entries.toList) {e : Entry} :
    table.entryUnder? label = some e ↔
      e ∈ table.entries.toList ∧ Label.same e.label label = true := by
  refine ⟨same_of_entryUnder?, ?_⟩
  rintro ⟨member, same⟩
  have present : (table.entryUnder? label).isSome = true :=
    List.find?_isSome.mpr ⟨e, member, same⟩
  rcases Option.isSome_iff_exists.mp present with ⟨other, found⟩
  rcases same_of_entryUnder? found with ⟨among, level⟩
  have equal : Label.same other.label e.label = true :=
    Label.same_trans level ((Label.same_comm label e.label).trans same)
  rw [found, distinct.eq_of_same among member equal]

theorem indexes_entries (distinct : DistinctLabels table.entries.toList) :
    table.index.Indexes table.entries.toList := by
  rw [table.index_eq]
  exact Label.Index.indexes_build distinct

theorem get?_eq_entryUnder? (distinct : DistinctLabels table.entries.toList) (label : String) :
    table.get? label = table.entryUnder? label := by
  apply Option.ext
  intro e
  rw [entryUnder?_eq_some_iff distinct, ← (indexes_entries distinct).bind_find?_eq_some_iff, get?]
  simp only [Array.getElem?_toList]

end Table

end Phrasebook

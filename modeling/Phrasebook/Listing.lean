import Std.Data.HashSet
import Phrasebook.Entry
import Phrasebook.Label.Order

/-!
# Listings

What reading a file yields: the entries in file order, each label at most once
up to ASCII case, with two facts about the file as a whole. A label that comes
again is dropped together with its phrase.
-/

namespace Phrasebook

def keepUnseen (seen : Std.HashSet (List Char)) : List Entry → List Entry
  | [] => []
  | e :: rest =>
      if seen.contains (Label.fold e.label) then keepUnseen seen rest
      else e :: keepUnseen (seen.insert (Label.fold e.label)) rest

/-- Keeps, under each label, the first entry. -/
def keepFirst (entries : List Entry) : List Entry := keepUnseen ∅ entries

structure Listing where
  entries : List Entry
  /-- The number of characters of the longest label in the file. -/
  maxLabelLen : Nat
  /-- The language that a compiled file names; zero for a plain one. -/
  languageId : UInt32
  deriving DecidableEq, Repr

def longest (lengths : List Nat) : Nat := lengths.foldr max 0

/-- The listing of a file with these blocks; dropped blocks count for the longest label. -/
def Listing.ofBlocks (blocks : List Entry) (languageId : UInt32) : Listing where
  entries := keepFirst blocks
  maxLabelLen := longest (blocks.map fun e => e.label.length)
  languageId := languageId

/-! ## The first entry under each label -/

theorem keepUnseen_eq_filter (seen : Std.HashSet (List Char)) (entries : List Entry) :
    keepUnseen seen entries =
      (keepFirst entries).filter fun e => !seen.contains (Label.fold e.label) := by
  induction entries generalizing seen with
  | nil => rfl
  | cons e rest ih =>
      simp only [keepFirst, keepUnseen, Std.HashSet.contains_empty, Bool.false_eq_true, if_false]
      rw [ih (Std.HashSet.insert ∅ (Label.fold e.label)), List.filter_cons]
      by_cases known : seen.contains (Label.fold e.label) = true
      · rw [if_pos known, ih seen, List.filter_filter]
        simp only [known, Bool.not_true, Bool.false_eq_true, if_false]
        refine List.filter_congr fun other _ => ?_
        by_cases eq : Label.fold e.label = Label.fold other.label
        · simp [← eq, known]
        · simp [Std.HashSet.contains_insert, eq]
      · rw [if_neg known, ih (seen.insert (Label.fold e.label)), List.filter_filter]
        simp only [known, Bool.not_false, if_true, List.cons.injEq, true_and]
        refine List.filter_congr fun other _ => ?_
        simp [Std.HashSet.contains_insert, Bool.and_comm]

@[simp] theorem keepFirst_nil : keepFirst [] = [] := rfl

theorem keepFirst_cons (e : Entry) (rest : List Entry) :
    keepFirst (e :: rest) =
      e :: (keepFirst rest).filter fun other => !Label.same e.label other.label := by
  simp only [keepFirst, keepUnseen, Std.HashSet.contains_empty, Bool.false_eq_true, if_false]
  rw [keepUnseen_eq_filter]
  congr 1
  refine List.filter_congr fun other _ => ?_
  simp [Std.HashSet.contains_insert, Label.same]

theorem mem_of_mem_keepFirst {e : Entry} {entries : List Entry} (h : e ∈ keepFirst entries) :
    e ∈ entries := by
  induction entries with
  | nil => exact h
  | cons head rest ih =>
      simp only [keepFirst_cons, List.mem_cons, List.mem_filter] at h ⊢
      exact h.imp id fun kept => ih kept.1

theorem pairwise_keepFirst (entries : List Entry) :
    (keepFirst entries).Pairwise fun a b => Label.fold a.label ≠ Label.fold b.label := by
  induction entries with
  | nil => exact List.Pairwise.nil
  | cons head rest ih =>
      rw [keepFirst_cons]
      refine List.Pairwise.cons (fun other kept => ?_) (ih.sublist List.filter_sublist)
      simpa [Label.same] using (List.mem_filter.mp kept).2

end Phrasebook

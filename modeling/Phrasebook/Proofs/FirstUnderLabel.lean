import Mathlib.Data.List.Induction
import Phrasebook.Listing

/-!
# The first entry under each label

A listing keeps an entry exactly if no earlier entry of the file has its label,
up to ASCII case. `keepFirst_eq_unrepeated` says so by position;
`keepFirst_eq_self` is the case of labels that are distinct, and `keepFirst_append`
says what further entries add.
-/

namespace Phrasebook

/-- One of the earlier entries has the label of this one. -/
def isRepeat (earlier : List Entry) (e : Entry) : Bool :=
  earlier.any fun other => Label.same other.label e.label

/-- The entries, in file order, whose label no earlier entry has. -/
def unrepeated (entries : List Entry) : List Entry :=
  (entries.zipIdx.filter fun (e, position) => !isRepeat (entries.take position) e).map Prod.fst

def DistinctLabels (entries : List Entry) : Prop :=
  entries.Pairwise fun a b => Label.same a.label b.label = false

instance (entries : List Entry) : Decidable (DistinctLabels entries) :=
  inferInstanceAs (Decidable (entries.Pairwise _))

theorem keepFirst_sublist (entries : List Entry) : (keepFirst entries).Sublist entries := by
  induction entries with
  | nil => exact List.Sublist.refl _
  | cons head rest ih =>
      rw [keepFirst_cons]
      exact (List.filter_sublist.trans ih).cons_cons head

theorem keepFirst_concat (entries : List Entry) (last : Entry) :
    keepFirst (entries ++ [last]) =
      keepFirst entries ++ if isRepeat entries last then [] else [last] := by
  induction entries with
  | nil => simp [keepFirst_cons, isRepeat]
  | cons head rest ih =>
      rw [List.cons_append, keepFirst_cons, keepFirst_cons, ih, List.filter_append,
        List.cons_append]
      congr 2
      by_cases known : isRepeat rest last = true
      · have repeated : isRepeat (head :: rest) last = true := by
          simp only [isRepeat, List.any_cons, Bool.or_eq_true] at known ⊢
          exact .inr known
        simp [known, repeated]
      · have unknown : isRepeat rest last = false := by simpa using known
        cases first : Label.same head.label last.label <;>
          simp_all [isRepeat]

theorem unrepeated_concat (entries : List Entry) (last : Entry) :
    unrepeated (entries ++ [last]) =
      unrepeated entries ++ if isRepeat entries last then [] else [last] := by
  have before : ∀ pair ∈ entries.zipIdx,
      (!isRepeat ((entries ++ [last]).take pair.2) pair.1) =
        !isRepeat (entries.take pair.2) pair.1 := by
    intro pair member
    have inside := (List.mem_zipIdx' member).1
    rw [List.take_append_of_le_length (Nat.le_of_lt inside)]
  have position : [last].zipIdx (0 + entries.length) = [(last, entries.length)] := by simp
  unfold unrepeated
  rw [List.zipIdx_append, List.filter_append, List.map_append, List.filter_congr before, position]
  have whole : (entries ++ [last]).take entries.length = entries := List.take_left
  cases known : isRepeat entries last <;> simp [whole, known]

theorem keepFirst_eq_unrepeated (entries : List Entry) :
    keepFirst entries = unrepeated entries := by
  induction entries using List.reverseRecOn with
  | nil => rfl
  | append_singleton entries last ih => rw [keepFirst_concat, unrepeated_concat, ih]

theorem keepFirst_eq_self {entries : List Entry} (distinct : DistinctLabels entries) :
    keepFirst entries = entries := by
  induction entries with
  | nil => rfl
  | cons head rest ih =>
      rcases List.pairwise_cons.mp distinct with ⟨apart, others⟩
      rw [keepFirst_cons, ih others, List.filter_eq_self.mpr]
      intro other member
      simp [apart other member]

theorem exists_mem_keepFirst {e : Entry} {entries : List Entry} (member : e ∈ entries) :
    ∃ kept ∈ keepFirst entries, Label.same kept.label e.label = true := by
  induction entries with
  | nil => cases member
  | cons head rest ih =>
      rw [keepFirst_cons]
      by_cases same : Label.same head.label e.label = true
      · exact ⟨head, List.mem_cons_self, same⟩
      · rcases List.mem_cons.mp member with rfl | later
        · exact (same (Label.same_refl _)).elim
        · rcases ih later with ⟨kept, among, equal⟩
          have apart : Label.same head.label kept.label = false :=
            Bool.eq_false_iff.mpr fun level => same (Label.same_trans level equal)
          exact ⟨kept, .tail head (List.mem_filter.mpr ⟨among, by simp [apart]⟩), equal⟩

theorem isRepeat_iff {entries : List Entry} {e : Entry} :
    isRepeat entries e = true ↔ ∃ other ∈ entries, Label.same other.label e.label = true :=
  List.any_eq_true

theorem isRepeat_keepFirst (entries : List Entry) (e : Entry) :
    isRepeat (keepFirst entries) e = isRepeat entries e := by
  rw [Bool.eq_iff_iff, isRepeat_iff, isRepeat_iff]
  constructor
  · rintro ⟨other, kept, same⟩
    exact ⟨other, mem_of_mem_keepFirst kept, same⟩
  · rintro ⟨other, member, same⟩
    obtain ⟨kept, first, equal⟩ := exists_mem_keepFirst member
    exact ⟨kept, first, Label.same_trans equal same⟩

theorem keepFirst_append (entries more : List Entry) :
    keepFirst (entries ++ more) =
      keepFirst entries ++ (keepFirst more).filter fun e => !isRepeat (keepFirst entries) e := by
  simp only [isRepeat_keepFirst]
  induction entries with
  | nil => exact (List.filter_eq_self.mpr fun _ _ => rfl).symm
  | cons head rest ih =>
      rw [List.cons_append, keepFirst_cons, ih, List.filter_append, List.filter_filter,
        keepFirst_cons, List.cons_append]
      congr 3
      funext e
      simp [isRepeat]

/-! ## The longest label -/

theorem le_longest {n : Nat} {lengths : List Nat} (member : n ∈ lengths) : n ≤ longest lengths := by
  induction lengths with
  | nil => cases member
  | cons head rest ih =>
      change n ≤ max head (longest rest)
      rcases List.mem_cons.mp member with rfl | later
      · exact Nat.le_max_left _ _
      · exact Nat.le_trans (ih later) (Nat.le_max_right _ _)

theorem longest_le {lengths : List Nat} {bound : Nat} (each : ∀ n ∈ lengths, n ≤ bound) :
    longest lengths ≤ bound := by
  induction lengths with
  | nil => exact Nat.zero_le _
  | cons head rest ih =>
      rcases List.forall_mem_cons.mp each with ⟨first, others⟩
      exact Nat.max_le.mpr ⟨first, ih others⟩

theorem longest_append (lengths more : List Nat) :
    longest (lengths ++ more) = max (longest lengths) (longest more) := by
  induction lengths with
  | nil => simp [longest]
  | cons n rest ih =>
      show max n (longest (rest ++ more)) = max (max n (longest rest)) (longest more)
      rw [ih, Nat.max_assoc]

theorem length_eq_of_same {a b : String} (same : Label.same a b = true) : a.length = b.length := by
  have folded := congrArg List.length (Label.same_iff.mp same)
  simpa [Label.fold, String.length_toList] using folded

theorem longest_keepFirst (entries : List Entry) :
    longest ((keepFirst entries).map fun e => e.label.length) =
      longest (entries.map fun e => e.label.length) := by
  apply Nat.le_antisymm
  · apply longest_le
    intro n member
    rcases List.mem_map.mp member with ⟨e, kept, rfl⟩
    exact le_longest (List.mem_map.mpr ⟨e, mem_of_mem_keepFirst kept, rfl⟩)
  · apply longest_le
    intro n member
    rcases List.mem_map.mp member with ⟨e, among, rfl⟩
    rcases exists_mem_keepFirst among with ⟨kept, first, same⟩
    rw [← length_eq_of_same same]
    exact le_longest (List.mem_map.mpr ⟨kept, first, rfl⟩)

theorem distinctLabels_keepFirst (entries : List Entry) : DistinctLabels (keepFirst entries) := by
  refine (pairwise_keepFirst entries).imp ?_
  intro a b apart
  rwa [← Bool.not_eq_true, Label.same_iff]

theorem longest_eq_max? (lengths : List Nat) : longest lengths = lengths.max?.getD 0 := by
  induction lengths with
  | nil => rfl
  | cons n rest ih =>
      rw [List.max?_cons]
      change max n (longest rest) = _
      rw [ih]
      cases rest.max? <;> simp [Option.elim]

theorem Listing.maxLabelLen_ofBlocks (blocks : List Entry) (languageId : UInt32) :
    (ofBlocks blocks languageId).maxLabelLen =
      ((ofBlocks blocks languageId).entries.map fun e => e.label.length).max?.getD 0 := by
  rw [← longest_eq_max?]
  exact (longest_keepFirst blocks).symm

/-- What the other listing says as well, perhaps with more entries behind these. -/
structure Listing.IsFrontOf (front whole : Listing) : Prop where
  entries : front.entries <+: whole.entries
  languageId : front.languageId = whole.languageId
  maxLabelLen : front.maxLabelLen ≤ whole.maxLabelLen

/-- The entries of the first listing, and those of the second one whose labels it does not have. -/
def Listing.extendedBy (first second : Listing) : Listing where
  entries := first.entries ++ second.entries.filter fun e => !isRepeat first.entries e
  maxLabelLen := max first.maxLabelLen second.maxLabelLen
  languageId := first.languageId

theorem Listing.ofBlocks_append (blocks more : List Entry) (languageId : UInt32) :
    ofBlocks (blocks ++ more) languageId =
      (ofBlocks blocks languageId).extendedBy (ofBlocks more languageId) := by
  simp only [ofBlocks, extendedBy, keepFirst_append, List.map_append, longest_append]

theorem Listing.isFrontOf_ofBlocks (blocks more : List Entry) (languageId : UInt32) :
    (ofBlocks blocks languageId).IsFrontOf (ofBlocks (blocks ++ more) languageId) := by
  rw [ofBlocks_append]
  exact ⟨List.prefix_append _ _, rfl, Nat.le_max_left _ _⟩

theorem Listing.ofBlocks_eq_unrepeated (blocks : List Entry) (languageId : UInt32) :
    Listing.ofBlocks blocks languageId =
      { entries := unrepeated blocks
        maxLabelLen := (blocks.map fun e => e.label.length).max?.getD 0
        languageId } := by
  rw [Listing.ofBlocks, keepFirst_eq_unrepeated, longest_eq_max?]

end Phrasebook

import Mathlib.Data.List.Basic
import Phrasebook.Path

/-!
# Paths under a root

A path is a list of names: what stands between its separators, where that is
anything. Resolving joins these names to the root (`resolve_eq`), so that paths
compose as lists of names do, and no spelling of the separators makes a
difference (`resolve_composes`).
-/

namespace Phrasebook.Path

/-! ## Names -/

def isSeparator (c : Char) : Bool := c = '/' || c = '\\'

/-- The names in a path, which either slash separates. -/
def names (path : String) : List String :=
  ((path.toList.splitOnP isSeparator).filter fun name => name ≠ []).map String.ofList

theorem pieces_normalize (chars : List Char) :
    pieces (chars.map fun c => if c = '\\' then '/' else c) = chars.splitOnP isSeparator := by
  induction chars with
  | nil => rfl
  | cons c rest ih =>
      rw [List.map_cons, pieces, ih, List.splitOnP_cons_eq_if_modifyHead]
      by_cases separates : isSeparator c = true
      · have slash : (if c = '\\' then '/' else c) = '/' := by
          simp only [isSeparator, Bool.or_eq_true, decide_eq_true_eq] at separates
          rcases separates with same | same <;> simp [same]
        rw [if_pos slash, if_pos separates]
      · have other : c ≠ '/' ∧ c ≠ '\\' := by simpa [isSeparator] using separates
        rw [if_neg other.2, if_neg other.1, if_neg separates]
        obtain ⟨piece, others, split⟩ :=
          List.exists_cons_of_ne_nil (List.splitOnP_ne_nil isSeparator rest)
        rw [split]
        rfl

theorem resolve_eq (root path : String) : resolve root path = (names path).foldl join root := by
  have split : components (normalize path) = names path := by
    rw [components, normalize, String.toList_ofList, pieces_normalize, names]
    congr 2
    funext piece
    cases piece <;> rfl
  rw [resolve, split]

theorem names_empty : names "" = [] := by simp [names]

theorem names_append {separator : String} (separates : separator = "/" ∨ separator = "\\")
    (a b : String) : names (a ++ separator ++ b) = names a ++ names b := by
  have split (c : Char) (between : isSeparator c = true) (single : separator.toList = [c]) :
      names (a ++ separator ++ b) = names a ++ names b := by
    have whole : (a ++ separator ++ b).toList = a.toList ++ c :: b.toList := by simp [single]
    rw [names, whole, List.splitOnP_append_cons _ _ between, List.filter_append, List.map_append]
    rfl
  rcases separates with rfl | rfl
  · exact split '/' rfl (by simp)
  · exact split '\\' rfl (by simp)

theorem separates_of_mem_splitOnP {α : Type} {separates : α → Bool} {xs piece : List α}
    (member : piece ∈ xs.splitOnP separates) : ∀ x ∈ piece, separates x = false := by
  induction xs generalizing piece with
  | nil =>
      rw [List.splitOnP_nil, List.mem_singleton] at member
      simp [member]
  | cons x rest ih =>
      rw [List.splitOnP_cons_eq_if_modifyHead] at member
      by_cases here : separates x = true
      · rw [if_pos here] at member
        rcases List.mem_cons.mp member with rfl | later
        · simp
        · exact ih later
      · obtain ⟨first, others, split⟩ :=
          List.exists_cons_of_ne_nil (List.splitOnP_ne_nil separates rest)
        rw [if_neg here, split, List.modifyHead_cons] at member
        rw [split] at ih
        rcases List.mem_cons.mp member with rfl | later
        · intro y among
          rcases List.mem_cons.mp among with rfl | inFirst
          · simpa using here
          · exact ih List.mem_cons_self y inFirst
        · exact ih (List.mem_cons_of_mem first later)

/-- What can stand between two separators of a path. -/
structure IsName (name : String) : Prop where
  nonempty : name ≠ ""
  whole : ∀ c ∈ name.toList, isSeparator c = false

theorem isName_of_mem_names {path name : String} (member : name ∈ names path) : IsName name := by
  obtain ⟨piece, among, rfl⟩ := List.mem_map.mp member
  obtain ⟨split, something⟩ := List.mem_filter.mp among
  constructor
  case nonempty =>
    intro empty
    have none := congrArg String.toList empty
    rw [String.toList_ofList] at none
    simp [none] at something
  case whole =>
    rw [String.toList_ofList]
    exact separates_of_mem_splitOnP split

/-! ## Joining -/

/-- A path as it stands in front of one more name. -/
def leading (path : String) : String :=
  if path = "" ∨ path.toList.getLast? = some '/' then path else path ++ "/"

theorem join_eq (path name : String) : join path name = leading path ++ name := by
  unfold join leading
  by_cases empty : path = ""
  · simp [empty]
  · by_cases slash : path.toList.getLast? = some '/' <;> simp [empty, slash]

theorem leading_append (front : String) {name : String} (isName : IsName name) :
    leading (front ++ name) = front ++ name ++ "/" := by
  have something : name.toList ≠ [] := by simpa using isName.nonempty
  have last : (front ++ name).toList.getLast? = name.toList.getLast? := by
    rw [String.toList_append, List.getLast?_append_of_ne_nil _ something]
  have unended : name.toList.getLast? ≠ some '/' := by
    intro ended
    have between := isName.whole '/' (List.mem_of_getLast? ended)
    cases between
  rw [leading, last, if_neg (by simp [unended, isName.nonempty])]

theorem foldl_join (root : String) {below : List String} (nonempty : below ≠ [])
    (each : ∀ name ∈ below, IsName name) :
    below.foldl join root = leading root ++ "/".intercalate below := by
  induction below generalizing root with
  | nil => exact absurd rfl nonempty
  | cons name rest ih =>
      rw [List.foldl_cons, join_eq]
      cases rest with
      | nil => simp
      | cons next rest =>
          rw [ih _ (List.cons_ne_nil next rest) fun n member => each n (.tail name member),
            leading_append _ (each name List.mem_cons_self), String.intercalate_cons_cons]
          simp [String.append_assoc]

/--
A path is resolved under a root by joining its names in order: the root, as it
stands in front of a name, and the names with a slash between any two. A path
that goes on behind a slash is resolved under what its front is resolved to.
Nothing changes if a separator is a backslash, or double, or stands at either end
of the path.
-/
theorem resolve_composes (root : String) :
    (∀ a b, resolve root (a ++ "/" ++ b) = resolve (resolve root a) b) ∧
      (∀ path, resolve root path = (names path).foldl join root) ∧
      (∀ path, resolve root path =
        if names path = [] then root else leading root ++ "/".intercalate (names path)) ∧
      (∀ a b, resolve root (a ++ "\\" ++ b) = resolve root (a ++ "/" ++ b)) ∧
      (∀ a b, resolve root (a ++ "//" ++ b) = resolve root (a ++ "/" ++ b)) ∧
      ∀ path, resolve root ("/" ++ path) = resolve root path ∧
        resolve root (path ++ "/") = resolve root path := by
  have slash (a b : String) : names (a ++ "/" ++ b) = names a ++ names b :=
    names_append (.inl rfl) a b
  have backslash (a b : String) : names (a ++ "\\" ++ b) = names a ++ names b :=
    names_append (.inr rfl) a b
  have first (path : String) : names ("/" ++ path) = names path := by
    simpa [names_empty] using slash "" path
  have last (path : String) : names (path ++ "/") = names path := by
    simpa [names_empty] using slash path ""
  refine ⟨?_, resolve_eq root, ?_, ?_, ?_, ?_⟩
  · intro a b
    simp only [resolve_eq, slash, List.foldl_append]
  · intro path
    rw [resolve_eq]
    split
    next none => rw [none, List.foldl_nil]
    next nonempty => exact foldl_join root nonempty fun name member => isName_of_mem_names member
  · intro a b
    rw [resolve_eq, resolve_eq, backslash, slash]
  · intro a b
    have doubled : a ++ "//" ++ b = a ++ "/" ++ ("/" ++ b) := by
      simp only [String.append_assoc]
      rfl
    rw [doubled, resolve_eq, resolve_eq, slash, slash, first]
  · intro path
    simp only [resolve_eq, first, last, and_self]

/-- A run of separators counts as one, and as none at either end. -/
example : names "\\data//English\\" = ["data", "English"] := by cbv

end Phrasebook.Path

import Mathlib.Data.Finset.Card
import Phrasebook.Files.Memory

/-!
# What a store of files remembers

A store in memory is filled by one insertion after another. Whatever these were,
each path leads to what was inserted last under any spelling of it, and the store
counts the paths that spell different ones (`ofFiles_remembers`).
-/

namespace Phrasebook

open Bytes

/-! ## Spellings of a path -/

namespace Path

/-- A character of a path as it counts: a backslash is a slash, a capital ASCII letter a small one. -/
def plainChar (c : Char) : Char :=
  if c = '\\' then '/' else if 'A' ≤ c ∧ c ≤ 'Z' then Char.ofNat (c.toNat + 32) else c

/-- What all spellings of a path have in common. -/
def plainForm (path : String) : List Char := path.toList.map plainChar

theorem toLower_eq (c : Char) :
    c.toLower = if 'A' ≤ c ∧ c ≤ 'Z' then Char.ofNat (c.toNat + 32) else c := by
  unfold Char.toLower
  by_cases letter : 'A' ≤ c ∧ c ≤ 'Z'
  · have high : c.toNat ≤ 90 := letter.2
    have apart : ('a'.val - 'A'.val).toNat = 32 := rfl
    have valid : (c.toNat + 32).isValidChar := .inl (by omega)
    have raised : (Char.ofNat (c.toNat + 32)).toNat = c.toNat + 32 := by
      rw [Char.ofNat, dif_pos valid]
      rfl
    rw [if_pos letter, dif_pos ⟨letter.1, letter.2⟩]
    apply Char.toNat_inj.mp
    rw [raised]
    change (c.val + ('a'.val - 'A'.val)).toNat = c.val.toNat + 32
    change c.val.toNat ≤ 90 at high
    rw [UInt32.toNat_add, apart]
    omega
  · have other : ¬(c.val ≥ 'A'.val ∧ c.val ≤ 'Z'.val) := letter
    rw [if_neg letter, dif_neg other]

theorem key_eq (path : String) : key path = String.ofList (plainForm path) := by
  have each (c : Char) : (if c = '\\' then '/' else c).toLower = plainChar c := by
    unfold plainChar
    split
    · rfl
    · exact toLower_eq c
  simp only [key, normalize, String.toList_ofList, List.map_map, plainForm]
  exact congrArg String.ofList (List.map_congr_left fun c _ => each c)

theorem key_eq_key_iff {p q : String} : key p = key q ↔ plainForm p = plainForm q := by
  rw [key_eq, key_eq, String.ofList_inj]

end Path

namespace MemoryStore

/-! ## Insertions -/

/-- The store that insertions leave, the earliest first, made one by one or in a chain. -/
def ofFiles (history : List (String × List UInt8)) : MemoryStore :=
  history.foldl (fun store file => store.insert file.1 file.2) {}

/-- What was inserted last under some spelling of the path. -/
def lastUnder? (history : List (String × List UInt8)) (path : String) : Option (List UInt8) :=
  (history.reverse.find? fun file => Path.plainForm file.1 = Path.plainForm path).map (·.2)

theorem lastUnder?_concat (history : List (String × List UInt8)) (file : String × List UInt8)
    (path : String) :
    lastUnder? (history ++ [file]) path =
      if Path.plainForm file.1 = Path.plainForm path then some file.2
      else lastUnder? history path := by
  rw [lastUnder?, List.reverse_append, List.reverse_singleton, List.singleton_append,
    List.find?_cons]
  by_cases same : Path.plainForm file.1 = Path.plainForm path <;> simp [same, lastUnder?]

theorem isSome_lastUnder?_iff {history : List (String × List UInt8)} {path : String} :
    (lastUnder? history path).isSome ↔
      Path.plainForm path ∈ history.map fun file => Path.plainForm file.1 := by
  simp [lastUnder?]

/-- A store holds what these insertions leave. -/
structure Remembers (store : MemoryStore) (history : List (String × List UInt8)) : Prop where
  found : ∀ path, store.files[Path.key path]? = lastUnder? history path
  size : store.size = (history.map fun file => Path.plainForm file.1).toFinset.card

theorem remembers_nothing : Remembers {} [] where
  found _ := Std.HashMap.getElem?_empty
  size := rfl

theorem Remembers.insert {store : MemoryStore} {history : List (String × List UInt8)}
    (remembers : store.Remembers history) (path : String) (data : List UInt8) :
    (store.insert path data).Remembers (history ++ [(path, data)]) where
  found other := by
    have same : (Path.key path == Path.key other) = true ↔
        Path.plainForm path = Path.plainForm other := by
      rw [beq_iff_eq, Path.key_eq_key_iff]
    rw [lastUnder?_concat, MemoryStore.insert, Std.HashMap.getElem?_insert, remembers.found]
    simp only [same]
  size := by
    have known : Path.key path ∈ store.files ↔
        Path.plainForm path ∈ (history.map fun file => Path.plainForm file.1).toFinset := by
      rw [Std.HashMap.mem_iff_isSome_getElem?, remembers.found, isSome_lastUnder?_iff,
        List.mem_toFinset]
    have before := remembers.size
    rw [MemoryStore.size] at before
    have grown : ((history ++ [(path, data)]).map fun file => Path.plainForm file.1).toFinset =
        Insert.insert (Path.plainForm path)
          (history.map fun file => Path.plainForm file.1).toFinset := by
      rw [Finset.insert_eq, Finset.union_comm]
      simp
    rw [grown, Finset.card_insert_eq_ite, MemoryStore.size, MemoryStore.insert,
      Std.HashMap.size_insert, before]
    simp only [known]

theorem remembers_ofFiles (history : List (String × List UInt8)) :
    (ofFiles history).Remembers history := by
  induction history using List.reverseRecOn with
  | nil => exact remembers_nothing
  | append_singleton history file ih =>
      rw [ofFiles, List.foldl_append]
      exact ih.insert file.1 file.2

/--
A path opens, in either mode, as the data that were inserted last under any
spelling of it, and there is a file under it if it opens. The size is the number
of paths that differ in more than their spelling, and only a store into which
nothing was inserted is empty.
-/
theorem ofFiles_remembers (history : List (String × List UInt8)) :
    let store := ofFiles history
    (∀ path mode, (store.openFile path mode).map Source.readAll =
        (lastUnder? history path).map Except.ok) ∧
      (∀ path mode, store.contains path = (store.openFile path mode).isSome) ∧
      store.size = (history.map fun file => Path.plainForm file.1).toFinset.card ∧
      (store.isEmpty = true ↔ history = []) := by
  intro store
  have remembers : store.Remembers history := remembers_ofFiles history
  refine ⟨?_, fun _ _ => rfl, remembers.size, ?_⟩
  · intro path mode
    rw [openFile, remembers.found, Option.map_map]
    rfl
  · have size := remembers.size
    rw [MemoryStore.size] at size
    rw [MemoryStore.isEmpty, Std.HashMap.isEmpty_eq_size_eq_zero, beq_iff_eq, size,
      Finset.card_eq_zero, List.toFinset_eq_empty_iff, List.map_eq_nil_iff]

/-- Two spellings of one path. One with a doubled slash is a path of its own. -/
example : lastUnder? [("d\\A", [1]), ("D/a", [2]), ("d//a", [3])] "d/A" = some [2] := by cbv

end MemoryStore

end Phrasebook

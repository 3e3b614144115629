import Mathlib.Data.List.TakeWhile
import Phrasebook.Bytes.Source

/-!
# The front of a source

What a reader takes from a source stands in front of the source that it leaves:
a number of bytes, or a line. In place of the end of a source another one may
follow.
-/

namespace Phrasebook.Bytes.Source

def prepend (front : List UInt8) (source : Source) : Source :=
  { source with pending := front ++ source.pending }

@[simp] theorem pending_prepend (front : List UInt8) (source : Source) :
    (source.prepend front).pending = front ++ source.pending := rfl

@[simp] theorem fault_prepend (front : List UInt8) (source : Source) :
    (source.prepend front).fault = source.fault := rfl

theorem prepend_append (first second : List UInt8) (source : Source) :
    source.prepend (first ++ second) = (source.prepend second).prepend first := by
  simp [prepend]

theorem split?_eq_some_iff {count : Nat} {source rest : Source} {front : List UInt8} :
    source.split? count = some (front, rest) ↔
      front.length = count ∧ source = rest.prepend front := by
  constructor
  · intro taken
    rcases split?_eq_some taken with ⟨size, pending, fault⟩
    refine ⟨size, ?_⟩
    cases source
    simp_all [prepend]
  · intro h
    rcases h with ⟨rfl, rfl⟩
    simp [split?]

/-! ## Sources one behind the other -/

/-- What is pending in the source, and in place of its end another source. -/
def followedBy (source next : Source) : Source := next.prepend source.pending

theorem followedBy_prepend (front : List UInt8) (source next : Source) :
    (source.prepend front).followedBy next = (source.followedBy next).prepend front :=
  prepend_append front source.pending next

theorem ofBytes_take_followedBy (n : Nat) (bytes : List UInt8) :
    (ofBytes (bytes.take n)).followedBy (ofBytes (bytes.drop n)) = ofBytes bytes := by
  simp [followedBy, ofBytes, prepend]

theorem split?_followedBy {count : Nat} {source rest : Source} {front : List UInt8}
    (taken : source.split? count = some (front, rest)) (next : Source) :
    (source.followedBy next).split? count = some (front, rest.followedBy next) := by
  obtain ⟨size, rfl⟩ := split?_eq_some_iff.mp taken
  exact split?_eq_some_iff.mpr ⟨size, followedBy_prepend front rest next⟩

/-! ## Lines -/

/-- The first line of some bytes and what follows it; the last line may lack its newline. -/
inductive FirstLine : List UInt8 → List UInt8 → List UInt8 → Prop
  | ended {line rest : List UInt8} (within : newline ∉ line) :
      FirstLine (line ++ newline :: rest) line rest
  | last {line : List UInt8} (within : newline ∉ line) (nonempty : line ≠ []) :
      FirstLine line line []

theorem exists_firstLine {bytes : List UInt8} (nonempty : bytes ≠ []) :
    ∃ line rest, FirstLine bytes line rest := by
  by_cases ended : newline ∈ bytes
  · rcases List.eq_append_cons_of_mem ended with ⟨line, rest, whole, within⟩
    rw [whole]
    exact ⟨line, rest, .ended within⟩
  · exact ⟨bytes, [], .last ended nonempty⟩

theorem bne_of_not_mem {line : List UInt8} (within : newline ∉ line) :
    ∀ b ∈ line, (b != newline) = true := by
  intro b member
  simp only [bne_iff_ne, ne_eq]
  intro same
  exact within (same ▸ member)

theorem breakLine?_append {line : List UInt8} (within : newline ∉ line) (rest : List UInt8) :
    breakLine? (line ++ newline :: rest) = some (line, rest) := by
  have inside := bne_of_not_mem within
  rw [breakLine?, List.dropWhile_append_of_pos inside, List.takeWhile_append_of_pos inside]
  simp

theorem breakLine?_eq_none {bytes : List UInt8} (within : newline ∉ bytes) :
    breakLine? bytes = none := by
  have nothing : bytes.dropWhile (· != newline) = [] :=
    List.dropWhile_eq_nil_iff.mpr (bne_of_not_mem within)
  rw [breakLine?, nothing]

theorem firstLine_of_readLine {source rest : Source} {line : List UInt8}
    (read : source.readLine = .ok (some (line, rest))) :
    FirstLine source.pending line rest.pending := by
  rcases source with ⟨bytes, fault⟩
  by_cases ended : newline ∈ bytes
  · rcases List.eq_append_cons_of_mem ended with ⟨front, behind, rfl, within⟩
    simp only [readLine, breakLine?_append within] at read
    cases read
    exact .ended within
  · simp only [readLine, breakLine?_eq_none ended] at read
    cases fault with
    | some fault => cases read
    | none =>
        by_cases empty : bytes = []
        · rw [if_pos empty] at read
          cases read
        · rw [if_neg empty] at read
          cases read
          exact .last ended empty

theorem FirstLine.within {bytes line rest : List UInt8} (first : FirstLine bytes line rest) :
    newline ∉ line := by
  cases first with
  | ended within | last within => exact within

theorem readLine_of_firstLine {bytes line rest : List UInt8} (first : FirstLine bytes line rest) :
    (ofBytes bytes).readLine = .ok (some (line, ofBytes rest)) := by
  cases first with
  | ended within => simp [readLine, ofBytes, breakLine?_append within]
  | last within nonempty => simp [readLine, ofBytes, breakLine?_eq_none within, nonempty]

theorem FirstLine.suffix {bytes line rest : List UInt8} (first : FirstLine bytes line rest) :
    rest <:+ bytes := by
  cases first with
  | ended => exact (List.suffix_cons _ _).trans (List.suffix_append _ _)
  | last => exact List.nil_suffix

theorem FirstLine.sublist {bytes line rest : List UInt8} (first : FirstLine bytes line rest) :
    line.Sublist bytes ∧ rest.Sublist bytes := by
  refine ⟨?_, first.suffix.sublist⟩
  cases first with
  | ended => exact List.sublist_append_left _ _
  | last => exact List.Sublist.refl _

theorem FirstLine.subset {bytes line rest : List UInt8} (first : FirstLine bytes line rest) :
    line ⊆ bytes ∧ rest ⊆ bytes :=
  ⟨first.sublist.1.subset, first.sublist.2.subset⟩

theorem FirstLine.sublist_concat {bytes line rest : List UInt8}
    (first : FirstLine bytes line rest) :
    (line ++ newline :: rest).Sublist (bytes ++ [newline]) := by
  cases first with
  | ended => exact List.sublist_append_left _ _
  | last => exact List.Sublist.refl _

theorem FirstLine.length_lt {bytes line rest : List UInt8} (first : FirstLine bytes line rest) :
    rest.length < bytes.length :=
  readLine_lt (readLine_of_firstLine first)

end Phrasebook.Bytes.Source

import Mathlib.Data.List.DropRight
import Phrasebook.Text.Escape
import Phrasebook.Text.Spacing

/-!
# Spaces that do not show

A second space behind a space changes nothing about the display text that
escaped bytes stand for. White space that a trim takes from the end of a line
therefore makes no difference where a newline, read as a space, follows it.
-/

namespace Phrasebook.Text

open Bytes

/-! ## Spaces in display text -/

theorem squeezeFrom_append_two_spaces (margin : Margin) (front rest : List Char) :
    squeezeFrom margin (front ++ ' ' :: ' ' :: rest) =
      squeezeFrom margin (front ++ ' ' :: rest) := by
  induction front generalizing margin with
  | nil => cases margin <;> simp [squeezeFrom]
  | cons c front ih =>
      simp only [List.cons_append, squeezeFrom]
      by_cases blank : c = ' '
      · rw [if_pos blank, if_pos blank]
        cases margin <;> exact ih _
      · rw [if_neg blank, if_neg blank]
        cases margin <;> simp only [ih]

theorem squeezeChars_append_two_spaces (front rest : List Char) :
    squeezeChars (front ++ ' ' :: ' ' :: rest) = squeezeChars (front ++ ' ' :: rest) := by
  have space : isBlank ' ' = true := rfl
  induction front with
  | nil => simp [squeezeChars, space]
  | cons c front ih =>
      unfold squeezeChars at ih ⊢
      rw [List.cons_append, List.cons_append, List.dropWhile_cons, List.dropWhile_cons]
      by_cases blank : isBlank c = true
      · rw [if_pos blank, if_pos blank, ih]
      · rw [if_neg blank, if_neg blank]
        exact squeezeFrom_append_two_spaces .afterBreak (c :: front) rest

/-! ## Spaces in escaped bytes -/

/-- Whether bytes end in a backslash that waits for its byte, after one that may have waited. -/
def awaitsByte : Bool → List UInt8 → Bool
  | awaiting, [] => awaiting
  | true, _ :: rest => awaitsByte false rest
  | false, b :: rest => awaitsByte (b = backslash) rest

theorem unescapeFrom_append (awaiting : Bool) (front rest : List UInt8) :
    unescapeFrom awaiting (front ++ rest) =
      unescapeFrom awaiting front ++ unescapeFrom (awaitsByte awaiting front) rest := by
  induction front generalizing awaiting with
  | nil => cases awaiting <;> simp [unescapeFrom, awaitsByte]
  | cons b front ih =>
      cases awaiting with
      | true => simp [unescapeFrom, awaitsByte, ih]
      | false =>
          by_cases starts : b = backslash <;> simp [unescapeFrom, awaitsByte, starts, ih]

theorem unescapeFrom_space (awaiting : Bool) (rest : List UInt8) :
    unescapeFrom awaiting (space :: rest) = ' ' :: unescapeFrom false rest := by
  cases awaiting <;> rfl

/-- The display text that escaped bytes stand for. -/
def display (bytes : List UInt8) : String := squeeze (unescape bytes)

theorem display_append_two_spaces (front rest : List UInt8) :
    display (front ++ space :: space :: rest) = display (front ++ space :: rest) := by
  apply String.toList_inj.mp
  simp only [display, toList_squeeze, toList_unescape, unescapeFrom_append, unescapeFrom_space]
  exact squeezeChars_append_two_spaces _ _

theorem display_append_spaces (front rest : List UInt8) (count : Nat) :
    display (front ++ List.replicate count space ++ space :: rest) =
      display (front ++ space :: rest) := by
  induction count with
  | zero => simp
  | succ count ih =>
      rw [← ih, List.replicate_succ, List.append_assoc, List.cons_append, List.append_assoc]
      cases count with
      | zero => exact display_append_two_spaces front rest
      | succ count =>
          exact display_append_two_spaces front (List.replicate count space ++ space :: rest)

/-! ## Trimming -/

def trimEnd (bytes : List UInt8) : List UInt8 := bytes.rdropWhile isSpace

theorem trimEnd_concat (bytes : List UInt8) (b : UInt8) :
    trimEnd (bytes ++ [b]) = if isSpace b then trimEnd bytes else bytes ++ [b] :=
  List.rdropWhile_concat isSpace bytes b

theorem trimEnd_append_blanks (bytes : List UInt8) :
    ∃ blanks, bytes = trimEnd bytes ++ blanks ∧ ∀ b ∈ blanks, isSpace b = true :=
  ⟨bytes.rtakeWhile isSpace, List.rdropWhile_append_rtakeWhile.symm,
    fun _ member => List.mem_rtakeWhile_imp member⟩

theorem trimEnd_subset (bytes : List UInt8) : trimEnd bytes ⊆ bytes :=
  (List.rdropWhile_prefix isSpace bytes).subset

theorem trimEnd_cons {b : UInt8} (visible : isSpace b = false) (rest : List UInt8) :
    trimEnd (b :: rest) = b :: trimEnd rest := by
  induction rest using List.reverseRecOn with
  | nil =>
      have alone := trimEnd_concat [] b
      rwa [visible] at alone
  | append_singleton rest last ih =>
      rw [← List.cons_append, trimEnd_concat, trimEnd_concat, ih]
      split <;> rfl

theorem trimEdges_eq_cons_iff {line more : List UInt8} {b : UInt8} :
    trimEdges line = b :: more ↔
      ∃ blanks rest, line = blanks ++ b :: rest ∧ (∀ c ∈ blanks, isSpace c = true) ∧
        isSpace b = false ∧ more = trimEnd rest := by
  have trimmed : trimEdges line = trimEnd (line.dropWhile isSpace) := rfl
  rw [trimmed]
  constructor
  · intro h
    have whole := List.takeWhile_append_dropWhile (p := isSpace) (l := line)
    cases visible : line.dropWhile isSpace with
    | nil => rw [visible] at h; cases h
    | cons first rest =>
        have seen : isSpace first = false := by
          have := List.head?_dropWhile_not isSpace line
          simpa [visible] using this
        rw [visible, trimEnd_cons seen] at h
        cases h
        rw [visible] at whole
        exact ⟨_, rest, whole.symm, fun c member => List.mem_takeWhile_imp member, seen, rfl⟩
  · intro h
    rcases h with ⟨blanks, rest, rfl, blank, seen, rfl⟩
    have start : (blanks ++ b :: rest).dropWhile isSpace = b :: rest := by
      rw [List.dropWhile_append_of_pos blank, List.dropWhile_cons_of_neg (by simp [seen])]
    rw [start, trimEnd_cons seen]

theorem trimEdges_concat_blank (line : List UInt8) {b : UInt8} (blank : isSpace b = true) :
    trimEdges (line ++ [b]) = trimEdges line := by
  change trimEnd ((line ++ [b]).dropWhile isSpace) = trimEnd (line.dropWhile isSpace)
  rw [List.dropWhile_append]
  cases visible : line.dropWhile isSpace with
  | nil => simp [blank]
  | cons first rest =>
      change trimEnd ((first :: rest) ++ [b]) = trimEnd (first :: rest)
      rw [trimEnd_concat, if_pos blank]

theorem trimEdges_sublist (line : List UInt8) : (trimEdges line).Sublist line :=
  (List.rdropWhile_prefix isSpace _).sublist.trans (List.dropWhile_suffix isSpace).sublist

theorem head?_trimEdges (line : List UInt8) : (trimEdges line).head?.any isSpace = false := by
  cases trimmed : trimEdges line with
  | nil => rfl
  | cons b more =>
      rcases trimEdges_eq_cons_iff.mp trimmed with ⟨-, -, -, -, visible, -⟩
      exact visible

theorem getLast?_trimEdges (line : List UInt8) :
    (trimEdges line).getLast?.any isSpace = false := by
  change (trimEnd (line.dropWhile isSpace)).getLast?.any isSpace = false
  induction line.dropWhile isSpace using List.reverseRecOn with
  | nil => rfl
  | append_singleton front b ih =>
      rw [trimEnd_concat]
      cases visible : isSpace b with
      | true => exact ih
      | false => simp [visible]

theorem trimEdges_eq_self {line : List UInt8} (first : line.head?.any isSpace = false)
    (last : line.getLast?.any isSpace = false) : trimEdges line = line := by
  have start : line.dropWhile isSpace = line := by
    cases line with
    | nil => rfl
    | cons b rest =>
        have visible : isSpace b = false := first
        rw [List.dropWhile_cons_of_neg (by simp [visible])]
  change trimEnd (line.dropWhile isSpace) = line
  rw [start]
  cases line using List.reverseRecOn with
  | nil => rfl
  | append_singleton rest b =>
      have visible : isSpace b = false := by
        rw [List.getLast?_concat] at last
        exact last
      rw [trimEnd_concat, visible]
      rfl

end Phrasebook.Text

import Mathlib.Data.List.Chain
import Phrasebook.Text.Spacing

/-!
# Text in normal spacing

Squeezing drops spaces and breaks and adds nothing, and it leaves text alone that
has been squeezed before. In the output a space that was held stands directly
before visible text, so that the second run holds it and writes it again.

Text is left alone exactly if it is `WellSpaced`: each character has to be one that
is written directly behind the one before it. Other text is `Tightened`: its visible
characters stay as they are, and of each gap between two of them one space at most.
-/

namespace Phrasebook.Text

/-- What is still to be written of the text before the margin. -/
def Margin.held : Margin → List Char
  | .spaceHeld => [' ']
  | _ => []

def Margin.written : Margin → Margin
  | .afterBreak => .afterBreak
  | _ => .afterText

theorem squeezeFrom_sublist (margin : Margin) (chars : List Char) :
    (squeezeFrom margin chars).Sublist (margin.held ++ chars) := by
  induction chars generalizing margin with
  | nil => exact List.nil_sublist _
  | cons c rest ih =>
      unfold squeezeFrom
      by_cases blank : c = ' '
      · rw [if_pos blank]
        subst blank
        cases margin with
        | afterBreak => exact (ih .afterBreak).cons ' '
        | afterText => exact ih .spaceHeld
        | spaceHeld => exact (ih .spaceHeld).cons ' '
      · rw [if_neg blank]
        split
        · exact ((ih .afterBreak).cons_cons c).trans (List.sublist_append_right _ _)
        · cases margin with
          | afterBreak => exact (ih .afterText).cons_cons c
          | afterText => exact (ih .afterText).cons_cons c
          | spaceHeld => exact ((ih .afterText).cons_cons c).cons_cons ' '

theorem squeezeChars_sublist (chars : List Char) : (squeezeChars chars).Sublist chars :=
  (squeezeFrom_sublist .afterBreak _).trans (List.dropWhile_sublist isBlank)

theorem mem_of_mem_squeeze {text : String} {c : Char} (member : c ∈ (squeeze text).toList) :
    c ∈ text.toList := by
  rw [toList_squeeze] at member
  exact (squeezeChars_sublist text.toList).subset member

theorem squeezeFrom_squeezeFrom (margin : Margin) (chars : List Char) :
    squeezeFrom margin.written (squeezeFrom margin chars) = squeezeFrom margin chars := by
  induction chars generalizing margin with
  | nil => cases margin <;> rfl
  | cons c rest ih =>
      have ofBreak := ih .afterBreak
      have ofText := ih .afterText
      have ofSpace := ih .spaceHeld
      simp only [Margin.written] at ofBreak ofText ofSpace
      simp only [squeezeFrom]
      by_cases blank : c = ' '
      · rw [if_pos blank]
        cases margin with
        | afterBreak => exact ofBreak
        | afterText | spaceHeld => exact ofSpace
      · rw [if_neg blank]
        by_cases breaks : isBreak c = true
        · simp only [breaks, if_true, squeezeFrom, if_neg blank, ofBreak]
        · cases margin <;>
            simp [breaks, squeezeFrom, blank, Margin.written, ofText]

theorem dropWhile_squeezeChars (chars : List Char) :
    (squeezeChars chars).dropWhile isBlank = squeezeChars chars := by
  unfold squeezeChars
  cases start : chars.dropWhile isBlank with
  | nil => rfl
  | cons c rest =>
      have visible : isBlank c = false := by
        have first := List.head?_dropWhile_not isBlank chars
        simpa [start] using first
      have other : c ≠ ' ' ∧ isBreak c = false := by
        simpa [isBlank] using visible
      simp [squeezeFrom, other, visible]

theorem squeezeChars_squeezeChars (chars : List Char) :
    squeezeChars (squeezeChars chars) = squeezeChars chars := by
  rw [squeezeChars, dropWhile_squeezeChars]
  exact squeezeFrom_squeezeFrom .afterBreak _

theorem squeeze_squeeze (text : String) : squeeze (squeeze text) = squeeze text := by
  apply String.toList_inj.mp
  rw [toList_squeeze, toList_squeeze, squeezeChars_squeezeChars]

/-! ## Text that is left alone -/

/-- The margin that a character leaves for the next one. -/
def marginAfter (c : Char) : Margin :=
  if c = ' ' then .spaceHeld else if isBreak c then .afterBreak else .afterText

/-- The character is written directly behind the margin, together with a space that is held. -/
def Margin.admits : Margin → Char → Bool
  | .afterBreak, c => c ≠ ' '
  | .afterText, _ => true
  | .spaceHeld, c => !isBlank c

/-- Neither is a space beside another space or a break. -/
def KeepApart (a b : Char) : Prop :=
  (a = ' ' → isBlank b = false) ∧ (isBreak a = true → b ≠ ' ')

/-- No blank at the beginning, no space at the end, and none beside another space or a break. -/
structure WellSpaced (chars : List Char) : Prop where
  first : chars.head?.any isBlank = false
  last : chars.getLast? ≠ some ' '
  apart : chars.IsChain KeepApart

theorem admits_marginAfter_iff (a b : Char) :
    (marginAfter a).admits b = true ↔ KeepApart a b := by
  unfold marginAfter KeepApart
  by_cases blank : a = ' '
  · subst blank
    simp [Margin.admits, isBreak]
  · by_cases breaks : isBreak a = true
    · simp [blank, breaks, Margin.admits]
    · simp [blank, breaks, Margin.admits]

theorem held_marginAfter_eq_nil_iff (c : Char) : (marginAfter c).held = [] ↔ c ≠ ' ' := by
  unfold marginAfter
  split
  next blank => simp [blank, Margin.held]
  next visible => split <;> simp [visible, Margin.held]

/-- A text comes out as it went in exactly if each character is admitted behind the one before. -/
theorem squeezeFrom_cons_eq_iff (margin : Margin) (c : Char) (rest : List Char) :
    squeezeFrom margin (c :: rest) = margin.held ++ c :: rest ↔
      margin.admits c = true ∧
        squeezeFrom (marginAfter c) rest = (marginAfter c).held ++ rest := by
  have shorter := (squeezeFrom_sublist margin rest).length_le
  by_cases blank : c = ' '
  · subst blank
    have dropped : squeezeFrom margin rest ≠ margin.held ++ ' ' :: rest := by
      intro same
      have lengths := congrArg List.length same
      rw [List.length_append, List.length_cons] at lengths
      rw [List.length_append] at shorter
      omega
    cases margin with
    | afterBreak => simp [squeezeFrom, dropped, Margin.admits]
    | afterText => simp [squeezeFrom, Margin.admits, Margin.held, marginAfter]
    | spaceHeld => simp [squeezeFrom, dropped, Margin.admits, isBlank]
  · by_cases breaks : isBreak c = true
    all_goals
      cases margin <;>
        simp [squeezeFrom, blank, breaks, Margin.admits, Margin.held, marginAfter, isBlank]

theorem squeezeFrom_marginAfter_eq_iff (c : Char) (rest : List Char) :
    squeezeFrom (marginAfter c) rest = (marginAfter c).held ++ rest ↔
      (c :: rest).getLast? ≠ some ' ' ∧ (c :: rest).IsChain KeepApart := by
  induction rest generalizing c with
  | nil =>
      have nothing : squeezeFrom (marginAfter c) [] = [] := by cases marginAfter c <;> rfl
      rw [nothing, List.append_nil, eq_comm, held_marginAfter_eq_nil_iff]
      simp
  | cons b rest ih =>
      rw [squeezeFrom_cons_eq_iff, ih, admits_marginAfter_iff, List.getLast?_cons_cons,
        List.isChain_cons_cons]
      exact and_left_comm

theorem squeezeChars_cons_eq_self_iff (c : Char) (rest : List Char) :
    squeezeChars (c :: rest) = c :: rest ↔
      isBlank c = false ∧ squeezeFrom .afterBreak (c :: rest) = c :: rest := by
  cases blank : isBlank c with
  | true =>
      have shorter := (squeezeChars_sublist rest).length_le
      have dropped : squeezeChars (c :: rest) = squeezeChars rest := by
        rw [squeezeChars, List.dropWhile_cons_of_pos blank, squeezeChars]
      rw [dropped]
      refine ⟨?_, fun visible => absurd visible.1 (by simp)⟩
      intro same
      rw [same, List.length_cons] at shorter
      omega
  | false =>
      rw [squeezeChars, List.dropWhile_cons_of_neg (by simp [blank])]
      exact (and_iff_right rfl).symm

theorem squeezeChars_eq_self_iff (chars : List Char) :
    squeezeChars chars = chars ↔ WellSpaced chars := by
  cases chars with
  | nil => exact ⟨fun _ => ⟨rfl, by simp, .nil⟩, fun _ => rfl⟩
  | cons c rest =>
      have settled : squeezeFrom .afterBreak (c :: rest) = c :: rest ↔ _ :=
        squeezeFrom_cons_eq_iff .afterBreak c rest
      rw [squeezeChars_cons_eq_self_iff, settled, squeezeFrom_marginAfter_eq_iff]
      constructor
      · rintro ⟨visible, -, last, apart⟩
        exact ⟨visible, last, apart⟩
      · rintro ⟨visible, last, apart⟩
        refine ⟨visible, ?_, last, apart⟩
        have other : c ≠ ' ' := by
          rintro rfl
          cases visible
        simpa [Margin.admits] using other

theorem squeeze_eq_self_iff (text : String) : squeeze text = text ↔ WellSpaced text.toList := by
  rw [← squeezeChars_eq_self_iff, ← toList_squeeze, String.toList_inj]

theorem wellSpaced_squeeze (text : String) : WellSpaced (squeeze text).toList :=
  (squeeze_eq_self_iff _).mp (squeeze_squeeze text)

/-! ## Gaps between visible characters -/

/-- The characters other than spaces, in order. -/
def visible (chars : List Char) : List Char := chars.filter (· ≠ ' ')

/-- How many of the spaces between two visible characters stay. -/
def keptSpaces (a b : Char) (count : Nat) : Nat :=
  if isBreak a || isBreak b then 0 else min count 1

@[simp] theorem visible_append (front rest : List Char) :
    visible (front ++ rest) = visible front ++ visible rest :=
  List.filter_append front rest

theorem visible_cons {c : Char} (shown : c ≠ ' ') (rest : List Char) :
    visible (c :: rest) = c :: visible rest :=
  List.filter_cons_of_pos (by simpa using shown)

theorem visible_space_cons (rest : List Char) : visible (' ' :: rest) = visible rest :=
  List.filter_cons_of_neg (by decide)

theorem squeezeFrom_cons_visible (margin : Margin) {c : Char} (shown : c ≠ ' ') :
    ∃ released, visible released = [] ∧ ∀ rest,
      squeezeFrom margin (c :: rest) = released ++ c :: squeezeFrom (marginAfter c) rest := by
  by_cases breaks : isBreak c = true
  · exact ⟨[], rfl, fun rest => by simp [squeezeFrom, marginAfter, shown, breaks]⟩
  · cases margin with
    | spaceHeld => exact ⟨[' '], rfl, fun rest => by simp [squeezeFrom, marginAfter, shown, breaks]⟩
    | afterBreak | afterText =>
        exact ⟨[], rfl, fun rest => by simp [squeezeFrom, marginAfter, shown, breaks]⟩

theorem visible_squeezeFrom (margin : Margin) (chars : List Char) :
    visible (squeezeFrom margin chars) = visible chars := by
  induction chars generalizing margin with
  | nil => rfl
  | cons c rest ih =>
      by_cases blank : c = ' '
      · subst blank
        rw [visible_space_cons]
        cases margin <;> exact ih _
      · obtain ⟨released, nothing, written⟩ := squeezeFrom_cons_visible margin blank
        rw [written, visible_append, nothing, visible_cons blank, visible_cons blank, ih]
        rfl

/-- What follows some text is squeezed on its own, from the margin that the text leaves. -/
theorem exists_squeezeFrom_append (margin : Margin) (front : List Char) :
    ∃ left, ∀ rest,
      squeezeFrom margin (front ++ rest) = squeezeFrom margin front ++ squeezeFrom left rest := by
  induction front generalizing margin with
  | nil => exact ⟨margin, fun _ => rfl⟩
  | cons c front ih =>
      by_cases blank : c = ' '
      · subst blank
        cases margin with
        | afterBreak => exact ih .afterBreak
        | afterText | spaceHeld => exact ih .spaceHeld
      · obtain ⟨left, split⟩ := ih (marginAfter c)
        obtain ⟨released, -, written⟩ := squeezeFrom_cons_visible margin blank
        refine ⟨left, fun rest => ?_⟩
        rw [List.cons_append, written, written, split]
        simp

/-- The margin behind some spaces more. -/
def Margin.behindSpaces : Margin → Nat → Margin
  | .afterText, _ + 1 => .spaceHeld
  | margin, _ => margin

theorem squeezeFrom_spaces (margin : Margin) (count : Nat) (rest : List Char) :
    squeezeFrom margin (List.replicate count ' ' ++ rest) =
      squeezeFrom (margin.behindSpaces count) rest := by
  induction count generalizing margin with
  | zero => cases margin <;> rfl
  | succ count ih =>
      cases margin with
      | afterBreak => exact ih .afterBreak
      | afterText | spaceHeld => exact ih .spaceHeld

/-- Of the spaces between two visible characters one is written, or none beside a break. -/
theorem squeezeFrom_gap {a b : Char} (first : a ≠ ' ') (second : b ≠ ' ') (count : Nat)
    (rest : List Char) :
    squeezeFrom (marginAfter a) (List.replicate count ' ' ++ b :: rest) =
      List.replicate (keptSpaces a b count) ' ' ++ b :: squeezeFrom (marginAfter b) rest := by
  rw [squeezeFrom_spaces]
  by_cases before : isBreak a = true
  · by_cases behind : isBreak b = true <;>
      simp [Margin.behindSpaces, squeezeFrom, marginAfter, keptSpaces, first, second, before,
        behind]
  · by_cases behind : isBreak b = true <;> cases count <;>
      simp [Margin.behindSpaces, squeezeFrom, marginAfter, keptSpaces, first, second, before,
        behind]

/--
The second text is the first one with fewer spaces: between two visible
characters one is left, or none beside a newline or a tab, and none at either end.
-/
structure Tightened (chars shown : List Char) : Prop where
  visible : visible shown = visible chars
  gaps : ∀ front a count b rest, chars = front ++ a :: List.replicate count ' ' ++ b :: rest →
    a ≠ ' ' → b ≠ ' ' →
    ∃ before behind,
      shown = before ++ a :: List.replicate (keptSpaces a b count) ' ' ++ b :: behind ∧
      Text.visible before = Text.visible front ∧ Text.visible behind = Text.visible rest
  first : shown.head? ≠ some ' '
  last : shown.getLast? ≠ some ' '

theorem tightened_squeeze (text : String) :
    Tightened (text.toList.dropWhile isBlank) (squeeze text).toList where
  visible := by
    rw [toList_squeeze]
    exact visible_squeezeFrom .afterBreak _
  gaps := by
    intro front a count b rest whole first second
    obtain ⟨left, split⟩ := exists_squeezeFrom_append .afterBreak front
    obtain ⟨released, nothing, written⟩ := squeezeFrom_cons_visible left first
    refine ⟨squeezeFrom .afterBreak front ++ released, squeezeFrom (marginAfter b) rest, ?_, ?_,
      visible_squeezeFrom _ rest⟩
    · calc
        (squeeze text).toList =
            squeezeFrom .afterBreak (front ++ a :: (List.replicate count ' ' ++ b :: rest)) := by
          rw [toList_squeeze, squeezeChars, whole, List.append_assoc, List.cons_append]
        _ = squeezeFrom .afterBreak front ++ (released ++ a ::
              (List.replicate (keptSpaces a b count) ' ' ++
                b :: squeezeFrom (marginAfter b) rest)) := by
          rw [split, written, squeezeFrom_gap first second]
        _ = _ := by simp
    · rw [visible_append, visible_squeezeFrom, nothing, List.append_nil]
  first := by
    intro blank
    have start := (wellSpaced_squeeze text).first
    rw [blank] at start
    cases start
  last := (wellSpaced_squeeze text).last

/--
Squeezing tightens a text that has lost the blanks at its beginning. To do so
again changes nothing, and a text stays as it is exactly if it is well spaced.
-/
theorem squeeze_tightens (text : String) :
    Tightened (text.toList.dropWhile isBlank) (squeeze text).toList ∧
      squeeze (squeeze text) = squeeze text ∧
      (squeeze text = text ↔ WellSpaced text.toList) :=
  ⟨tightened_squeeze text, squeeze_squeeze text, squeeze_eq_self_iff text⟩

example : squeeze " \n a   b \t\n c \r " = "a b\t\nc \r" := by decide

end Phrasebook.Text

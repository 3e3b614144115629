import Phrasebook.Proofs.Catalogue.Settled
import Phrasebook.Proofs.Catalogue.Tables
import Phrasebook.Proofs.Lookup

/-!
# What a catalogue serves

A reachable catalogue answers from its main table, or else from the map table
under it, as if both were searched entry by entry. Only shutting down takes a
main table away, so that nothing else changes what is served from it.
-/

namespace Phrasebook.Catalogue

variable {σ : Type} {files : FileService (StateM σ)} {settings : Settings} {c : Catalogue}

def topmost? (main : Table) (map : Option Table) (label : String) : Option Entry :=
  match main.entryUnder? label with
  | some e => some e
  | none =>
      match map with
      | some map => map.entryUnder? label
      | none => none

theorem find?_eq_topmost? (reached : Reachable files settings c) {main : Table}
    (loaded : c.main = some main) (label : String) :
    c.find? label = (topmost? main c.map label).map Entry.text := by
  unfold find? topmost?
  rw [loaded]
  dsimp only
  rw [Table.get?_eq_entryUnder? (reached.distinctLabels_main main loaded)]
  cases main.entryUnder? label with
  | some e => rfl
  | none =>
      cases laid : c.map with
      | none => rfl
      | some map =>
          dsimp only
          rw [Table.get?_eq_entryUnder? (reached.distinctLabels_map map laid)]

theorem fetch_eq_layered (reached : Reachable files settings c) {main : Table}
    (loaded : c.main = some main) (label : String) :
    c.fetch label =
      match topmost? main c.map label with
      | some e => ({ text := e.text, found := true }, c)
      | none => ({ text := missingPlaceholder label, found := false }, c.noteMissing label) := by
  rw [fetch_of_main loaded, find?_eq_topmost? reached loaded]
  cases topmost? main c.map label <;> rfl

theorem fetchOr_eq_of_fetch (c : Catalogue) (label substitute : String) :
    c.fetchOr label substitute =
      if (c.fetch label).1.found then (c.fetch label).1.text else substitute := by
  cases loaded : c.main with
  | none => simp [fetchOr, fetch, find?, loaded]
  | some main =>
      rw [fetch_of_main loaded]
      cases found : c.find? label <;> simp [fetchOr, found]

/-! ## The main table over a run -/

structure SameMain (c other : Catalogue) : Prop where
  main : other.main = c.main
  format : other.format = c.format
  title : other.title = c.title

theorem SameMain.trans {first second third : Catalogue} (one : SameMain first second)
    (two : SameMain second third) : SameMain first third where
  main := two.main.trans one.main
  format := two.format.trans one.format
  title := two.title.trans one.title

theorem sameMain_of_performsAs (coherent : Coherent settings c) (loaded : c.main ≠ none)
    {operation : Operation} {result : Catalogue} {s after : σ}
    (performs : PerformsAs files c s operation result after) (other : operation ≠ .shutDown) :
    SameMain c result := by
  have started : c.started = true := coherent.started loaded
  cases performs with
  | start starts =>
      cases starts with
      | again => exact ⟨rfl, rfl, rfl⟩
      | unserved fresh | empty fresh | dropped fresh | served fresh =>
          rw [started] at fresh
          cases fresh
  | loadMap loads =>
      cases loads with
      | unusable | dropped | loaded => exact ⟨rfl, rfl, rfl⟩
  | unloadMap => exact ⟨rfl, rfl, rfl⟩
  | shutDown => exact absurd rfl other
  | fetch label =>
      rw [fetch_snd_eq]
      exact ⟨rfl, rfl, rfl⟩

theorem sameMain_performAll (reached : Reachable files settings c) (loaded : c.main ≠ none)
    {steps : List (Operation × σ)} (others : ∀ step ∈ steps, step.1 ≠ .shutDown) :
    SameMain c (c.performAll files steps) := by
  induction steps generalizing c with
  | nil => exact ⟨rfl, rfl, rfl⟩
  | cons step rest ih =>
      rcases List.forall_mem_cons.mp others with ⟨first, later⟩
      have kept := sameMain_of_performsAs reached.coherent loaded
        (performsAs_perform files step.1 c step.2) first
      have there : (perform files step.1 c step.2).1.main ≠ none := by rwa [kept.main]
      exact kept.trans (ih (reached.step step.1 step.2) there later)

/--
The answer to every label in a reachable catalogue, and what a run without
shutting down leaves of it: the main table with its format, title and language,
and every phrase that is served from it.
-/
theorem fetch_layered (files : FileService (StateM σ)) (settings : Settings) (c : Catalogue)
    (reached : Reachable files settings c) :
    (∀ label, c.fetch label =
      match c.main with
      | none => ({ text := fatalPlaceholder, found := false }, c)
      | some main =>
          match topmost? main c.map label with
          | some e => ({ text := e.text, found := true }, c)
          | none =>
              ({ text := "MISSING: '" ++ label ++ "'", found := false }, c.noteMissing label)) ∧
    (∀ label substitute, c.fetchOr label substitute =
      if (c.fetch label).1.found then (c.fetch label).1.text else substitute) ∧
    ∀ main, c.main = some main → ∀ steps : List (Operation × σ),
      (∀ step ∈ steps, step.1 ≠ .shutDown) →
      (c.performAll files steps).main = some main ∧
      (c.performAll files steps).format = c.format ∧
      (c.performAll files steps).title = c.title ∧
      (c.performAll files steps).languageId = c.languageId ∧
      ∀ label e, main.entryUnder? label = some e →
        (c.performAll files steps).fetch label =
          ({ text := e.text, found := true }, c.performAll files steps) := by
  refine ⟨?_, c.fetchOr_eq_of_fetch, ?_⟩
  · intro label
    cases loaded : c.main with
    | none => rw [fetch, loaded]
    | some main => exact fetch_eq_layered reached loaded label
  · intro main loaded steps others
    have same := sameMain_performAll reached (by simp [loaded]) others
    have kept : (c.performAll files steps).main = some main := same.main.trans loaded
    refine ⟨kept, same.format, same.title, ?_, ?_⟩
    · simp only [languageId, same.main]
    · intro label e found
      have layered : topmost? main (c.performAll files steps).map label = some e := by
        unfold topmost?
        rw [found]
      rw [fetch_eq_layered (reached.performAll files steps) kept, layered]

/-! ## A map laid under a main table -/

def mapListing : Listing :=
  { entries := [{ label := "a", text := "under" }, { label := "B", text := "map" }]
    maxLabelLen := 1
    languageId := 0 }

theorem load_print_mapListing :
    Plain.load (.ofBytes (Plain.print mapListing.entries)) = .ok mapListing := by
  rw [mapListing, Plain.load_print_eq (by decide) (by decide) (by simp)]
  cbv

def bothFiles : FileService (StateM Unit) := settledFiles (printedFiles mainListing mapListing)

def overlaid : Catalogue :=
  performAll bothFiles { settings := {} } [(.start, ()), (.loadMap "map", ())]

theorem reachable_overlaid : Reachable bothFiles {} overlaid := reachable_withMap mapListing

theorem tables_overlaid :
    overlaid.main = some (.ofListing mainListing) ∧
      overlaid.map = some (.ofListing mapListing) := by
  have counted : Plain.count (.ofBytes (Plain.print mapListing.entries)) = .ok 502 := by cbv
  exact tables_withMap counted load_print_mapListing

/-- The phrase of the main table is served, also after the map has gone. -/
theorem fetch_layered_overlaid :
    Reachable bothFiles {} overlaid ∧
      (overlaid.fetch "a").1 = { text := "main", found := true } ∧
      (overlaid.fetch "b").1 = { text := "map", found := true } ∧
      (overlaid.fetch "c").1 = { text := "MISSING: 'c'", found := false } ∧
      overlaid.fetchOr "c" "none" = "none" ∧
      ((overlaid.performAll bothFiles [(.unloadMap, ()), (.start, ())]).fetch "a").1 =
        { text := "main", found := true } := by
  rcases tables_overlaid with ⟨loaded, laid⟩
  rcases fetch_layered _ _ _ reachable_overlaid with ⟨answers, substitutes, runs⟩
  simp only [loaded, laid] at answers
  refine ⟨reachable_overlaid, ?_, ?_, ?_, ?_, ?_⟩
  · rw [answers]
    rfl
  · rw [answers]
    rfl
  · rw [answers]
    rfl
  · rw [substitutes, answers]
    rfl
  · rcases runs _ loaded [(.unloadMap, ()), (.start, ())] (by simp) with ⟨-, -, -, -, kept⟩
    rw [kept "a" { label := "A", text := "main" } rfl]

end Phrasebook.Catalogue

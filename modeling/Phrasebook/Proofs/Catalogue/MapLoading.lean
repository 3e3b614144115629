import Phrasebook.Proofs.Catalogue.Loading

/-!
# Loading a map table

Loading a map table replaces it as a whole or leaves none, and changes nothing
else but the longest label. The files may answer every opening differently, so
that the outcome is described by what was delivered: `Delivers` says what the
openings of a path yield one after another, and a recording service shows that
there have been no others.
-/

namespace Phrasebook

open Bytes

structure Opening where
  path : String
  mode : OpenMode
  delivered : Option Source

/-- The same files with a record of every opening, the latest last. -/
def FileService.recording {σ : Type} (files : FileService (StateM σ)) :
    FileService (StateM (σ × List Opening)) where
  openFile path mode := fun (s, record) =>
    let (delivered, after) := files.openFile path mode s
    (delivered, after, record ++ [{ path, mode, delivered }])

theorem Plain.ne_fileNotFound_of_load {source : Source} {e : LoadError}
    (failed : load source = .error e) (path : String) : e ≠ .fileNotFound path := by
  have blocks (source : Source) (e : LoadError) (failed : readBlocks source = .error e) :
      e ≠ .fileNotFound path := by
    fun_induction readBlocks source generalizing e
    case case1 | case4 | case5 =>
      cases failed
      simp
    case case2 => cases failed
    case case3 ih => exact ih e failed
    case case6 rest eq ih =>
      cases failed
      exact ih _ eq
    case case7 => cases failed
  unfold load at failed
  cases read : readBlocks source with
  | error other =>
      rw [read] at failed
      cases failed
      exact blocks source e read
  | ok =>
      rw [read] at failed
      cases failed

namespace Catalogue

variable {σ : Type}

/-- The openings of a path for text, one after another, yield these sources. -/
inductive Delivers (files : FileService (StateM σ)) (path : String) :
    σ → List (Option Source) → σ → Prop
  | nil {s : σ} : Delivers files path s [] s
  | cons {s middle after : σ} {delivered : Option Source} {rest : List (Option Source)}
      (opened : files.openFile path .text s = (delivered, middle))
      (others : Delivers files path middle rest after) :
      Delivers files path s (delivered :: rest) after

variable {files : FileService (StateM σ)} {path : String} {s after : σ}
  {deliveries : List (Option Source)}

theorem Delivers.recording (delivers : Delivers files path s deliveries after)
    (record : List Opening) :
    Delivers files.recording path (s, record) deliveries
      (after, record ++ deliveries.map (Opening.mk path .text)) := by
  induction delivers generalizing record with
  | nil =>
      rw [List.map_nil, List.append_nil]
      exact .nil
  | @cons s middle after delivered rest opened others ih =>
      have noted : files.recording.openFile path .text (s, record) =
          (delivered, middle, record ++ [.mk path .text delivered]) := by
        simp [FileService.recording, opened]
      rw [List.map_cons, List.append_cons]
      exact .cons noted (ih _)

/-- The ways in which loading a map table can end, by what the openings yield. -/
inductive MapEnding (path : String) (c : Catalogue) :
    List (Option Source) → Except LoadError Nat → Catalogue → Prop
  | absent : MapEnding path c [none] (.error (.fileNotFound path)) { c with map := none }
  | uncounted {first : Source} {e : LoadError} (failed : Plain.count first = .error e) :
      MapEnding path c [some first] (.error (.fileNotFound path)) { c with map := none }
  | vanished {first : Source} {count : Nat} (counted : Plain.count first = .ok count) :
      MapEnding path c [some first, none] (.error (.fileNotFound path)) { c with map := none }
  | malformed {first second : Source} {count : Nat} {e : LoadError}
      (counted : Plain.count first = .ok count) (failed : Plain.load second = .error e) :
      MapEnding path c [some first, some second] (.error e) { c with map := none }
  | loaded {first second : Source} {count : Nat} {listing : Listing}
      (counted : Plain.count first = .ok count) (loaded : Plain.load second = .ok listing) :
      MapEnding path c [some first, some second] (.ok listing.entries.length)
        { c with
          map := some (.ofListing listing)
          maxLabelLen := max c.maxLabelLen listing.maxLabelLen }

theorem loadMap_of_delivers {c result : Catalogue} {told : Except LoadError Nat}
    (ending : MapEnding path c deliveries told result)
    (delivers : Delivers files path s deliveries after) :
    c.loadMap files path s = ((told, result), after) := by
  cases ending with
  | absent =>
      rcases delivers with _ | ⟨opened, ⟨⟩⟩
      exact loadMap_eq files (.unusable (readFile_of_missing files opened))
  | uncounted failed =>
      rcases delivers with _ | ⟨opened, ⟨⟩⟩
      exact loadMap_eq files (.unusable (readFile_of_delivered files opened failed))
  | vanished counted =>
      rcases delivers with _ | ⟨opened, _ | ⟨gone, ⟨⟩⟩⟩
      exact loadMap_eq files (.dropped (readFile_of_delivered files opened counted)
        (readFile_of_missing files gone))
  | malformed counted failed =>
      rcases delivers with _ | ⟨opened, _ | ⟨again, ⟨⟩⟩⟩
      exact loadMap_eq files (.dropped (readFile_of_delivered files opened counted)
        (readFile_of_delivered files again failed))
  | loaded counted loaded =>
      rcases delivers with _ | ⟨opened, _ | ⟨again, ⟨⟩⟩⟩
      exact loadMap_eq files (.loaded (readFile_of_delivered files opened counted)
        (readFile_of_delivered files again loaded))

theorem exists_mapEnding (files : FileService (StateM σ)) (path : String) (c : Catalogue) (s : σ) :
    ∃ deliveries after told result, Delivers files path s deliveries after ∧
      MapEnding path c deliveries told result := by
  rcases opened : files.openFile path .text s with ⟨_ | first, middle⟩
  · exact ⟨_, _, _, _, .cons opened .nil, .absent⟩
  · cases counted : Plain.count first with
    | error e => exact ⟨_, _, _, _, .cons opened .nil, .uncounted counted⟩
    | ok count =>
        rcases again : files.openFile path .text middle with ⟨_ | second, after⟩
        · exact ⟨_, _, _, _, .cons opened (.cons again .nil), .vanished counted⟩
        · cases loaded : Plain.load second with
          | error e =>
              exact ⟨_, _, _, _, .cons opened (.cons again .nil), .malformed counted loaded⟩
          | ok listing =>
              exact ⟨_, _, _, _, .cons opened (.cons again .nil), .loaded counted loaded⟩

/-- The first opening fails, or the counting of what it yields, or the second opening. -/
def Unavailable (deliveries : List (Option Source)) : Prop :=
  deliveries = [none] ∨
    (∃ first e, deliveries = [some first] ∧ Plain.count first = .error e) ∨
    ∃ first, deliveries = [some first, none]

/--
Loading a map table either fails and leaves none, or puts the whole listing of
the second opening in its place; all else stays as it was. Only the path itself
is opened, at most twice.
-/
theorem loadMap_atomic (files : FileService (StateM σ)) (path : String) (c : Catalogue) (s : σ) :
    ∃ deliveries after told result,
      c.loadMap files path s = ((told, result), after) ∧
      (∀ record, c.loadMap files.recording path (s, record) =
        ((told, result), after, record ++ deliveries.map (Opening.mk path .text))) ∧
      deliveries.length ≤ 2 ∧
      ((∃ e, told = .error e ∧ result = { c with map := none }) ∨
        ∃ first second listing, deliveries = [some first, some second] ∧
          Plain.load second = .ok listing ∧ told = .ok listing.entries.length ∧
          result =
            { c with
              map := some (.ofListing listing)
              maxLabelLen := max c.maxLabelLen listing.maxLabelLen }) ∧
      (told = .error (.fileNotFound path) ↔ Unavailable deliveries) ∧
      ∀ e, told = .error e → ¬Unavailable deliveries →
        ∃ first second, deliveries = [some first, some second] ∧
          Plain.load second = .error e := by
  rcases exists_mapEnding files path c s with ⟨deliveries, after, told, result, delivers, ending⟩
  refine ⟨deliveries, after, told, result, loadMap_of_delivers ending delivers,
    fun record => loadMap_of_delivers ending (delivers.recording record), ?_⟩
  cases ending with
  | absent =>
      have gone : Unavailable [none] := .inl rfl
      exact ⟨by decide, .inl ⟨_, rfl, rfl⟩, iff_of_true rfl gone,
        fun _ _ other => absurd gone other⟩
  | @uncounted first e failed =>
      have gone : Unavailable [some first] := .inr (.inl ⟨first, e, rfl, failed⟩)
      exact ⟨by simp, .inl ⟨_, rfl, rfl⟩, iff_of_true rfl gone,
        fun _ _ other => absurd gone other⟩
  | @vanished first count counted =>
      have gone : Unavailable [some first, none] := .inr (.inr ⟨first, rfl⟩)
      exact ⟨by simp, .inl ⟨_, rfl, rfl⟩, iff_of_true rfl gone,
        fun _ _ other => absurd gone other⟩
  | @malformed first second count e counted failed =>
      have different := Plain.ne_fileNotFound_of_load failed path
      refine ⟨by simp, .inl ⟨_, rfl, rfl⟩, iff_of_false ?_ ?_, ?_⟩
      · simpa using different
      · simp [Unavailable]
      · intro other same _
        cases same
        exact ⟨first, second, rfl, failed⟩
  | @loaded first second count listing counted loaded =>
      refine ⟨by simp, .inr ⟨first, second, listing, rfl, loaded, rfl, rfl⟩,
        iff_of_false ?_ ?_, ?_⟩
      · simp
      · simp [Unavailable]
      · intro e same
        cases same

end Catalogue

end Phrasebook

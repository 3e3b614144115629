import Mathlib.Data.List.Basic
import Phrasebook.Files.Folder
import Phrasebook.Proofs.Files.System

/-!
# Writing into a folder

A file that is created lies at one place, and nothing else changes. The walk to
that place went through directories only, so that it is the same afterwards and
the path that was written to gives back what was written (`Writes.openFile_eq`).
-/

namespace Phrasebook.Folder

open Bytes

/-! ## Places -/

/-- The file is written, and no directory or alias comes or goes. -/
structure Writes (before after : Folder) (place : Place) (data : List UInt8) : Prop extends
    system.Writes before after place data where
  directories : after.directories = before.directories
  aliases : after.aliases = before.aliases

theorem writes_put (folder : Folder) (place : Place) (data : List UInt8) :
    folder.Writes (folder.put place data) place data where
  toWrites := system.writes_put folder place data
  directories := rfl
  aliases := rfl

theorem Writes.put {before after : Folder} {place : Place} {data : List UInt8}
    (writes : before.Writes after place data) (more : List UInt8) :
    before.Writes (after.put place more) place more where
  toWrites := writes.toWrites.put more
  directories := writes.directories
  aliases := writes.aliases

/-! ## Walks -/

theorem exists_of_bind_eq_ok {α β : Type} {x : Except OsError α} {next : α → Except OsError β}
    {result : β} (ran : (x >>= next) = .ok result) : ∃ a, x = .ok a ∧ next a = .ok result := by
  cases x with
  | error e => cases ran
  | ok a => exact ⟨a, rfl, ran⟩

/-- A file may be written at the place: one is there already, or no directory is. -/
def Free (folder : Folder) (place : Place) : Prop :=
  ¬((folder.fileAt? place).isNone ∧ folder.isDirectory place)

section Walks

variable {folder after : Folder} {place : Place} {path : String} {data : List UInt8}

theorem requireDirectory_eq_ok_iff {at_ : Place} :
    folder.requireDirectory at_ = .ok () ↔
      folder.fileAt? at_ = none ∧ folder.isDirectory at_ = true := by
  unfold requireDirectory
  cases folder.fileAt? at_ <;> cases folder.isDirectory at_ <;> simp

theorem Writes.isDirectory_eq (writes : folder.Writes after place data) (at_ : Place) :
    after.isDirectory at_ = folder.isDirectory at_ := by
  rw [isDirectory, isDirectory, writes.directories]

theorem Writes.requireDirectory (writes : folder.Writes after place data)
    (free : folder.Free place) {at_ : Place} (required : folder.requireDirectory at_ = .ok ()) :
    after.requireDirectory at_ = .ok () := by
  obtain ⟨noFile, directory⟩ := requireDirectory_eq_ok_iff.mp required
  have apart : at_ ≠ place := by
    rintro rfl
    exact free ⟨by rw [noFile]; rfl, directory⟩
  have kept : after.fileAt? at_ = folder.fileAt? at_ := writes.others at_ apart
  rw [requireDirectory_eq_ok_iff, kept, writes.isDirectory_eq]
  exact ⟨noFile, directory⟩

theorem requireDirectory_of_walkName {at_ next : Place} {name : String}
    (walked : folder.walkName at_ name = .ok next) : folder.requireDirectory at_ = .ok () := by
  obtain ⟨_, required, -⟩ := exists_of_bind_eq_ok walked
  exact required

theorem Writes.walkName (writes : folder.Writes after place data) (free : folder.Free place)
    {at_ next : Place} {name : String} (walked : folder.walkName at_ name = .ok next) :
    after.walkName at_ name = .ok next := by
  have required := requireDirectory_of_walkName walked
  have settled : after.settle = folder.settle := by
    funext other
    rw [settle, settle, writes.aliases]
  unfold Folder.walkName at walked ⊢
  rw [writes.requireDirectory free required, settled]
  rwa [required] at walked

theorem Writes.foldlM_walkName (writes : folder.Writes after place data)
    (free : folder.Free place) {names : List String} {start last : Place}
    (walked : names.foldlM folder.walkName start = .ok last) :
    names.foldlM after.walkName start = .ok last := by
  induction names generalizing start with
  | nil => exact walked
  | cons name names ih =>
      obtain ⟨middle, first, walked⟩ := exists_of_bind_eq_ok walked
      rw [List.foldlM_cons, writes.walkName free first]
      exact ih walked

/-! ## The place for a file -/

theorem of_placeToWrite (found : folder.placeToWrite path = .ok place) :
    requirePath path = .ok () ∧ endsInSlash path = false ∧
      (Path.components path).foldlM folder.walkName (startOf path) = .ok place ∧
      folder.Free place := by
  obtain ⟨_, valid, found⟩ := exists_of_bind_eq_ok found
  obtain ⟨parent, walked, found⟩ := exists_of_bind_eq_ok found
  obtain ⟨_, -, found⟩ := exists_of_bind_eq_ok found
  cases last : (Path.components path).getLast? with
  | none =>
      rw [last] at found
      cases found
  | some name =>
      rw [last] at found
      dsimp only at found
      split at found
      next => cases found
      next ordinary =>
        obtain ⟨at_, step, found⟩ := exists_of_bind_eq_ok found
        split at found
        next => cases found
        next free =>
          cases found
          simp only [not_or, Bool.not_eq_true] at ordinary
          refine ⟨valid, ordinary.1, ?_, free⟩
          rw [← List.dropLast_append_getLast? name last, List.foldlM_append, walked]
          change (folder.walkName parent name >>= pure) = _
          rw [step]
          rfl

theorem Writes.openFile_eq (writes : folder.Writes after place data)
    (found : folder.placeToWrite path = .ok place) :
    after.openFile path = .ok (.ofBytes data) := by
  obtain ⟨valid, noSlash, walked, free⟩ := of_placeToWrite found
  have written : after.fileAt? place = some data := writes.written
  have reached : after.placeToRead path = .ok place := by
    unfold placeToRead
    rw [valid, writes.foldlM_walkName free walked, noSlash]
    simp [bind, Except.bind, pure, Except.pure, written]
  have opened : after.openFile path = (after.placeToRead path).map (system.source after) := rfl
  rw [opened, reached]
  change Except.ok (system.source after place) = _
  have contents : system.contents? after place = some data := writes.written
  rw [System.source, contents]
  rfl

end Walks

theorem writeFile_eq_ok_iff {folder after : Folder} {path : String} {data : List UInt8} :
    disk.writeFile path data folder = (.ok (), after) ↔
      ∃ place, folder.placeToWrite path = .ok place ∧ folder.shortfall? place data = none ∧
        (folder.put place []).put place data = after := by
  have ran : disk.writeFile path data folder = _ := system.writeFile_eq folder path data
  have reached : system.toWrite folder path = folder.placeToWrite path := rfl
  rw [ran, reached]
  cases folder.placeToWrite path with
  | error e =>
      refine ⟨fun same => ?_, fun ⟨_, found, _⟩ => ?_⟩
      · cases same
      · cases found
  | ok place =>
      have written := @System.write_eq_ok_iff _ _ system (folder.put place []) after place data
      refine written.trans ⟨fun ⟨delivered, stored⟩ => ⟨place, rfl, delivered, stored⟩, ?_⟩
      rintro ⟨_, ⟨⟩, delivered, stored⟩
      exact ⟨delivered, stored⟩

end Phrasebook.Folder

import Phrasebook.CommandLine.Run
import Phrasebook.Proofs.Faults
import Phrasebook.Proofs.Folder
import Phrasebook.Settings.Json

/-!
# Loading the file of a command

The commands load their files in one way: the extension tells the format, and a
plain file is opened once more to be counted first. Where opening changes nothing,
the second look finds what the first one found, so that counting decides nothing
and leaves no trace (`loadFile_eq`).
-/

namespace Phrasebook

/-- The format that an extension tells, in whatever ASCII case it is written. -/
def Format.ofExtension (extension : Option String) : Format :=
  if extension.map String.toLower = some "csf" then compiled else plain

theorem Path.isCompiled_iff {path : String} :
    isCompiled path = true ↔ (extension? path).map String.toLower = some "csf" := by
  unfold isCompiled
  cases extension? path with
  | none => simp
  | some extension =>
      simp only [Option.map_some, Option.some.injEq, beq_iff_eq]
      rw [← String.toList_inj]
      simp [String.toLower, String.toList_map]

theorem Format.ofPath_eq (path : String) : ofPath path = ofExtension (Path.extension? path) := by
  simp only [ofPath, ofExtension, Path.isCompiled_iff]

namespace CommandLine

/-! ## Files that load -/

section Loads

variable {σ : Type} {host : Host (StateM σ)} {path logged : String} {s after : σ}
  {listing : Listing}

end Loads

/-! ## Files of a system -/

section Systems

variable {σ File : Type} (system : System σ File) (library : Settings.Library)
  (log : Format → Bytes.Source → String) (s : σ) (path : String)

/-- The commands run on a system of files. -/
def Host.onSystem : Host (StateM σ) := { disk := system.disk, library, log }

/-- The listing of a file in the format that its extension tells, or why there is none. -/
def listingAt : Except Failure Listing :=
  match system.openFile s path with
  | .error e => .error (.os e)
  | .ok source => ((Format.ofExtension (Path.extension? path)).load source).mapError .load

theorem loadFile_eq :
    ∃ logged, loadFile (Host.onSystem system library log) path s =
      ((listingAt system s path, logged), s) := by
  have opened : (Host.onSystem system library log).disk.openFile path s =
      (system.openFile s path, s) := rfl
  unfold loadFile listingAt
  rw [← Format.ofPath_eq]
  cases Format.ofPath path with
  | compiled =>
      dsimp only
      rw [bind_eq_of_eq opened]
      cases system.openFile s path <;> exact ⟨_, rfl⟩
  | plain =>
      dsimp only
      rw [bind_eq_of_eq opened]
      cases found : system.openFile s path with
      | error e => exact ⟨_, rfl⟩
      | ok source =>
          dsimp only
          cases counted : Format.plain.expectedCount source with
          | error e =>
              have failed : Format.plain.load source = .error e :=
                Plain.load_of_count_eq_error counted
              rw [failed]
              exact ⟨_, rfl⟩
          | ok count =>
              dsimp only
              rw [bind_eq_of_eq opened, found]
              exact ⟨_, rfl⟩

end Systems

/-- A folder as a host where nothing is logged. -/
def folderHost : Host (StateM Folder) :=
  Host.onSystem Folder.system Settings.strictJson fun _ _ => ""

end CommandLine

end Phrasebook

import Phrasebook.Files.System

/-!
# Writing a file of a system

Creating a file and writing to it change nothing but what that file holds
(`Writes.put`), and what it holds then is the front of the output up to the
fault, if there is one.
-/

namespace Phrasebook

theorem bind_eq_of_eq {σ α β : Type} {x : StateM σ α} {s after : σ} {a : α}
    (ran : x s = (a, after)) (next : α → StateM σ β) : (x >>= next) s = next a after := by
  change StateT.bind x next s = next a after
  simp only [StateT.bind, ran]
  rfl

namespace System

variable {σ File : Type} {system : System σ File} {s : σ} {path : String}

/-- Nothing differs but the file, which now has these data and may be new. -/
structure Writes (system : System σ File) (before after : σ) (file : File) (data : List UInt8) :
    Prop where
  written : system.contents? after file = some data
  others : ∀ other, other ≠ file → system.contents? after other = system.contents? before other

theorem writes_put (s : σ) (file : File) (data : List UInt8) :
    system.Writes s (system.put s file data) file data where
  written := system.contents?_put_self s file data
  others := system.contents?_put_of_ne s file data

theorem Writes.put {before after : σ} {file : File} {data : List UInt8}
    (writes : system.Writes before after file data) (more : List UInt8) :
    system.Writes before (system.put after file more) file more where
  written := system.contents?_put_self after file more
  others other apart :=
    (system.contents?_put_of_ne after file more other apart).trans (writes.others other apart)

theorem createFile_of_refused {e : OsError} (refused : system.toWrite s path = .error e) :
    system.disk.createFile path s = (.error e, s) := by
  simp only [disk, refused]

theorem createFile_of_reached {file : File} (reached : system.toWrite s path = .ok file) :
    system.disk.createFile path s = (.ok file, system.put s file []) := by
  simp only [disk, reached]

theorem write_of_delivered {file : File} {output : List UInt8}
    (delivered : system.shortfall? s file output = none) :
    system.disk.write file output s = (.ok (), system.put s file output) := by
  simp only [disk, delivery, delivered, Bytes.deliver]

theorem write_of_shortfall {file : File} {output : List UInt8} {short : Bytes.Shortfall}
    (failed : system.shortfall? s file output = some short) :
    system.disk.write file output s =
      (.error short.fault, system.put s file (output.take short.taken)) := by
  simp only [disk, delivery, failed, Bytes.deliver]

theorem write_eq_ok_iff {after : σ} {file : File} {output : List UInt8} :
    system.disk.write file output s = (.ok (), after) ↔
      system.shortfall? s file output = none ∧ system.put s file output = after := by
  cases met : system.shortfall? s file output with
  | none =>
      rw [write_of_delivered met]
      exact ⟨fun same => ⟨rfl, congrArg Prod.snd same⟩, fun ⟨_, same⟩ => by rw [same]⟩
  | some short =>
      rw [write_of_shortfall met]
      exact ⟨fun same => (by cases same), fun ⟨delivered, _⟩ => (by cases delivered)⟩

theorem writeFile_eq (s : σ) (path : String) (data : List UInt8) :
    system.disk.writeFile path data s =
      match system.toWrite s path with
      | .error e => (.error e.fault, s)
      | .ok file => system.disk.write file data (system.put s file []) := by
  cases reached : system.toWrite s path with
  | error e => exact bind_eq_of_eq (createFile_of_refused reached) _
  | ok file => exact bind_eq_of_eq (createFile_of_reached reached) _

end System

end Phrasebook

import Phrasebook.Proofs.CommandLine.LoadedFile

/-!
# Converting a file

A conversion reads its file to the end before it creates another one, so that a
file may be converted in its own place, under this path or another that leads to
it. Whatever goes wrong before that leaves all files as they were. A write that
fails comes too late for that, as creating a file has emptied it (`convert_atomic`).
-/

namespace Phrasebook.CommandLine

/--
What a conversion writes: the entries in the format that the extension tells, in
the language that is asked for; zero asks for that of the listing.
-/
def converted (listing : Listing) (destination : String) (languageId : UInt32) : List UInt8 :=
  (Format.ofExtension (Path.extension? destination)).print listing.entries
    (if languageId = 0 then listing.languageId else languageId)

section Converting

variable {σ File : Type} {system : System σ File} {library : Settings.Library}
  {log : Format → Bytes.Source → String} {s : σ} {source destination : String}
  {languageId : UInt32} {listing : Listing}

theorem convert_of_failure {f : Failure} (failed : listingAt system s source = .error f) :
    ∃ logged, convert (Host.onSystem system library log) source destination languageId s =
      (.failure logged f, s) := by
  obtain ⟨logged, loaded⟩ := loadFile_eq system library log s source
  rw [failed] at loaded
  exact ⟨logged, bind_eq_of_eq loaded _⟩

theorem convert_of_refused {e : OsError} (read : listingAt system s source = .ok listing)
    (refused : system.toWrite s destination = .error e) :
    ∃ logged, convert (Host.onSystem system library log) source destination languageId s =
      (.failure logged (.os e), s) := by
  obtain ⟨logged, loaded⟩ := loadFile_eq system library log s source
  rw [read] at loaded
  refine ⟨logged, ?_⟩
  rw [convert, bind_eq_of_eq loaded]
  exact bind_eq_of_eq (System.createFile_of_refused refused) _

theorem convert_of_created {file : File} (read : listingAt system s source = .ok listing)
    (reached : system.toWrite s destination = .ok file) :
    ∃ logged shown, convert (Host.onSystem system library log) source destination languageId s =
      match system.disk.write file (converted listing destination languageId)
        (system.put s file []) with
      | (.error fault, after) => (.failure logged (.load (.io fault)), after)
      | (.ok (), after) => (.success shown, after) := by
  obtain ⟨logged, loaded⟩ := loadFile_eq system library log s source
  rw [read] at loaded
  have created : (Host.onSystem system library log).disk.createFile destination s =
      (.ok file, system.put s file []) := System.createFile_of_reached reached
  refine ⟨logged, logged ++ "Converted " ++ listing.entries.length.repr ++ " records: " ++ source ++
    " -> " ++ destination ++ "\n", ?_⟩
  rw [convert, bind_eq_of_eq loaded]
  dsimp only
  rw [bind_eq_of_eq created, Format.ofPath_eq]
  dsimp only
  rcases written : system.disk.write file (converted listing destination languageId)
    (system.put s file []) with ⟨_ | _, after⟩
  · exact bind_eq_of_eq written _
  · exact bind_eq_of_eq written _

end Converting

/--
A file that does not load, or a path under which no file can be created, ends the
command with 1 and changes nothing. Otherwise nothing changes but the file which
that path leads to, even if it is the one that was read. If writing it goes well,
the command ends with 0; if not, it ends with 1, and what the file held is lost.
-/
theorem convert_atomic {σ File : Type} (system : System σ File) (library : Settings.Library)
    (log : Format → Bytes.Source → String) (s : σ) (source destination : String)
    (languageId : UInt32) :
    let (outcome, after) := Command.run (Host.onSystem system library log)
      (.convert source destination languageId) s
    match listingAt system s source, system.toWrite s destination with
    | .ok listing, .ok file =>
        let output := converted listing destination languageId
        match system.shortfall? (system.put s file []) file output with
        | none => outcome.code = 0 ∧ system.Writes s after file output
        | some short => outcome.code = 1 ∧ system.Writes s after file (output.take short.taken)
    | _, _ => outcome.code = 1 ∧ after = s := by
  rw [Command.run]
  cases read : listingAt system s source with
  | error f =>
      obtain ⟨logged, ran⟩ := convert_of_failure read
      rw [ran]
      exact ⟨rfl, rfl⟩
  | ok listing =>
      cases reached : system.toWrite s destination with
      | error e =>
          obtain ⟨logged, ran⟩ := convert_of_refused read reached
          rw [ran]
          exact ⟨rfl, rfl⟩
      | ok file =>
          obtain ⟨logged, shown, ran⟩ := convert_of_created read reached
          rw [ran]
          have emptied := system.writes_put s file []
          cases short : system.shortfall? (system.put s file []) file
            (converted listing destination languageId) with
          | none =>
              rw [System.write_of_delivered short]
              simp only [short]
              exact ⟨rfl, emptied.put _⟩
          | some _ =>
              rw [System.write_of_shortfall short]
              simp only [short]
              exact ⟨rfl, emptied.put _⟩

/-! ## A folder -/

def single : List Entry := [{ label := "A" }]

def singleListing : Listing := { entries := single, maxLabelLen := 1, languageId := 1 }

theorem listingAt_single {folder : Folder} {path : String}
    (opened : Folder.system.openFile folder path = .ok (.ofBytes (Compiled.print single 1)))
    (format : Format.ofPath path = .compiled) :
    listingAt Folder.system folder path = .ok singleListing := by
  have read : Format.compiled.load (.ofBytes (Compiled.print single 1)) = .ok singleListing := by
    cbv
  rw [Format.ofPath_eq] at format
  rw [listingAt, opened, format]
  exact congrArg (Except.mapError Failure.load) read

/-- A file with a link to it, and the working directory under its own name. -/
def linkedFolder : Folder :=
  { Folder.ofFiles [("b/c", []), ("a.csf", Compiled.print single 1)] with
    aliases := [({ names := ["l.csf"] }, { names := ["a.csf"] }),
      ({ anchor := .ancestor 1, names := ["work"] }, {})] }

/-- A file is converted in its own place, and a directory is no place for it. -/
theorem convert_atomic_linkedFolder :
    let inPlace := Command.run folderHost (.convert "b/../a.csf" "../work/l.csf" 7) linkedFolder
    let refused := Command.run folderHost (.convert "b/../a.csf" "b" 7) linkedFolder
    (inPlace.1.code = 0 ∧ Folder.system.Writes linkedFolder inPlace.2 { names := ["a.csf"] }
        (Compiled.print single 7)) ∧
      refused.1.code = 1 ∧ refused.2 = linkedFolder := by
  have read : listingAt Folder.system linkedFolder "b/../a.csf" = .ok singleListing :=
    listingAt_single rfl (by decide)
  have format : Format.ofPath "../work/l.csf" = .compiled := by decide
  rw [Format.ofPath_eq] at format
  have reached : Folder.system.toWrite linkedFolder "../work/l.csf" =
      .ok { names := ["a.csf"] } := rfl
  have noFile : Folder.system.toWrite linkedFolder "b" = .error .isDirectory := rfl
  have room (output : List UInt8) : Folder.system.shortfall?
      (Folder.system.put linkedFolder { names := ["a.csf"] } []) { names := ["a.csf"] } output =
        none := rfl
  have inPlace := convert_atomic Folder.system Settings.strictJson (fun _ _ => "") linkedFolder
    "b/../a.csf" "../work/l.csf" 7
  have refused := convert_atomic Folder.system Settings.strictJson (fun _ _ => "") linkedFolder
    "b/../a.csf" "b" 7
  simp only [read, reached, room, converted, format] at inPlace
  simp only [read, noFile] at refused
  exact ⟨inPlace, refused⟩

/-- Like a full disk: two files are there, and the second one cannot take another byte. -/
def fullFolder : Folder :=
  { Folder.ofFiles [("a.csf", Compiled.print single 1), ("b.csf", [1])] with
    rooms := [({ names := ["b.csf"] }, 0)] }

/-- The file loads and the other one can be created, and yet the command fails and empties it. -/
theorem convert_empties_fullFolder :
    let (outcome, after) := Command.run folderHost (.convert "a.csf" "b.csf" 0) fullFolder
    listingAt Folder.system fullFolder "a.csf" = .ok singleListing ∧
      Folder.system.toWrite fullFolder "b.csf" = .ok { names := ["b.csf"] } ∧
      fullFolder.fileAt? { names := ["b.csf"] } = some [1] ∧
      outcome.code = 1 ∧ after.fileAt? { names := ["b.csf"] } = some [] := by
  have read : listingAt Folder.system fullFolder "a.csf" = .ok singleListing :=
    listingAt_single rfl (by decide)
  have reached : Folder.system.toWrite fullFolder "b.csf" = .ok { names := ["b.csf"] } := rfl
  have format : Format.ofPath "b.csf" = .compiled := by decide
  rw [Format.ofPath_eq] at format
  have output : converted singleListing "b.csf" 0 = Compiled.print single 1 := by
    rw [converted, format]
    rfl
  have short : Folder.system.shortfall?
      (Folder.system.put fullFolder { names := ["b.csf"] } []) { names := ["b.csf"] }
        (converted singleListing "b.csf" 0) =
      some { taken := 0, fault := OsError.noSpace.fault } := by
    rw [output]
    rfl
  obtain ⟨logged, shown, ran⟩ := @convert_of_created _ _ Folder.system Settings.strictJson
    (fun _ _ => "") fullFolder "a.csf" "b.csf" 0 _ _ read reached
  rw [System.write_of_shortfall short] at ran
  have whole : Command.run folderHost (.convert "a.csf" "b.csf" 0) fullFolder = _ := ran
  rw [whole]
  exact ⟨read, reached, rfl, rfl, rfl⟩

end Phrasebook.CommandLine

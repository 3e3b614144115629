import Phrasebook.Proofs.Folder
import Phrasebook.Proofs.Json.Objects
import Phrasebook.Settings.Json

/-!
# Settings come back from their file

Settings are written as an object whose members are the fields, under names that
differ, so that reading finds each field under its name. Hence whatever texts the
settings hold, they are the same after they have been saved and loaded
(`load_save`), if the library keeps to the syntax, as the strict one does
(`standard_strictJson`).
-/

namespace Phrasebook.Settings

open Bytes Json

/-! ## Fields -/

theorem nodup_fields (s : Settings) : (s.fields.map Prod.fst).Nodup := by
  have names : s.fields.map Prod.fst = ({} : Settings).fields.map Prod.fst := rfl
  rw [names]
  decide

theorem filter_eq_lookup {β : Type} {entries : List (String × β)}
    (distinct : (entries.map Prod.fst).Nodup) (name : String) :
    entries.filter (fun entry => entry.1 == name) =
      ((entries.lookup name).map fun value => (name, value)).toList := by
  induction entries with
  | nil => rfl
  | cons first rest ih =>
      obtain ⟨key, value⟩ := first
      rw [List.map_cons, List.nodup_cons] at distinct
      by_cases same : key = name
      · subst same
        have others : rest.filter (fun entry => entry.1 == key) = [] := by
          simp only [List.filter_eq_nil_iff, beq_iff_eq]
          intro entry member same
          exact distinct.1 (List.mem_map.mpr ⟨entry, member, same⟩)
        simp [others]
      · have apart : (name == key) = false := beq_false_of_ne (Ne.symm same)
        simp [same, apart, List.lookup_cons, ih distinct.2]

theorem lookup_of_mem {β : Type} {entries : List (String × β)} {entry : String × β}
    (distinct : (entries.map Prod.fst).Nodup) (member : entry ∈ entries) :
    entries.lookup entry.1 = some entry.2 := by
  have kept : entry ∈ entries.filter (fun other => other.1 == entry.1) :=
    List.mem_filter.mpr ⟨member, beq_self_eq_true _⟩
  rw [filter_eq_lookup distinct] at kept
  obtain ⟨value, found, same⟩ := Option.map_eq_some_iff.mp (Option.mem_toList.mp kept)
  exact found.trans (congrArg some (congrArg Prod.snd same))

theorem gives_fields {s : Settings} {name : String} {value : Scalar}
    (member : (name, value) ∈ s.fields) (default : Scalar) : Gives s.fields name default value :=
  .inl (lookup_of_mem s.nodup_fields member)

theorem takenFrom_fields (s : Settings) : s.TakenFrom s.fields where
  language := gives_fields (by simp [fields]) _
  usePlain := gives_fields (by simp [fields]) _
  plainFile := gives_fields (by simp [fields]) _
  compiledFile := gives_fields (by simp [fields]) _
  titleLabel := gives_fields (by simp [fields]) _

/-! ## Files -/

section Files

variable {library : Library}

theorem load_write (standard : library.Standard) (s : Settings) :
    load library (.ofBytes (Text.utf8 (library.write s))) = .ok s := by
  have read : library.read? (library.write s) = some s :=
    standard.reads _ s.fields s (standard.writes s) s.nodup_fields s.takenFrom_fields
  simp only [load, Source.readAll, Source.ofBytes, Text.ofUtf8?_utf8, read]

theorem save?_eq_some_iff {s : Settings} {folder after : Folder} {path : String} :
    save? library s folder path = some after ↔
      ∃ place, (folder.makeParents path).placeToWrite path = .ok place ∧
        (folder.makeParents path).shortfall? place (Text.utf8 (library.write s)) = none ∧
        ((folder.makeParents path).put place []).put place (Text.utf8 (library.write s)) =
          after := by
  rw [← Folder.writeFile_eq_ok_iff, save?]
  split
  next refused =>
    rw [refused]
    constructor <;> intro same <;> cases same
  next written =>
    rw [written]
    constructor <;> intro same <;> cases same <;> rfl

/--
Settings are the same after they have been written out and read. They can be saved
wherever a file with enough room can be created once its directories are made, and
the path that they were saved under gives them back.
-/
theorem load_save (standard : library.Standard) (s : Settings) :
    load library (.ofBytes (Text.utf8 (library.write s))) = .ok s ∧
      ∀ (folder : Folder) (path : String),
        ((save? library s folder path).isSome ↔
          ∃ place, (folder.makeParents path).placeToWrite path = .ok place ∧
            (folder.makeParents path).shortfall? place (Text.utf8 (library.write s)) = none) ∧
        ∀ after, save? library s folder path = some after →
          loadOpened library (after.openFile path) = .ok s := by
  refine ⟨load_write standard s, ?_⟩
  intro folder path
  constructor
  · simp [Option.isSome_iff_exists, save?_eq_some_iff]
  · intro after saved
    obtain ⟨place, found, -, rfl⟩ := save?_eq_some_iff.mp saved
    have writes := ((folder.makeParents path).writes_put place []).put
      (Text.utf8 (library.write s))
    rw [writes.openFile_eq found]
    exact load_write standard s

end Files

/-! ## The strict library -/

def values (members : List (String × Scalar)) : List (String × Value) :=
  members.map fun m => (m.1, m.2.value)

theorem member?_values {α : Type} {decode : Value → Option α} (wrap : α → Scalar)
    (decodes : ∀ a, decode (wrap a).value = some a) {members : List (String × Scalar)}
    (distinct : (members.map Prod.fst).Nodup) {name : String} {default value : α}
    (gives : Gives members name (wrap default) (wrap value)) :
    member? decode (values members) name default = some value := by
  have found : (values members).filter (fun m => m.1 == name) =
      ((members.lookup name).map fun scalar => (name, scalar.value)).toList := by
    have mapped : (values members).filter (fun m => m.1 == name) =
        values (members.filter fun m => m.1 == name) := List.filter_map
    rw [mapped, filter_eq_lookup distinct]
    cases members.lookup name <;> rfl
  rcases gives with there | ⟨nowhere, same⟩
  · rw [there] at found
    simp [member?, found, decodes]
  · have decoded := decodes value
    rw [same, decodes] at decoded
    rw [nowhere] at found
    simpa [member?, found] using decoded

theorem ofMembers?_values {members : List (String × Scalar)} {s : Settings}
    (distinct : (members.map Prod.fst).Nodup) (taken : s.TakenFrom members) :
    ofMembers? (values members) = some s := by
  have text {name default value : String}
      (gives : Gives members name (.text default) (.text value)) :
      member? text? (values members) name default = some value :=
    member?_values .text (fun _ => rfl) distinct gives
  have flag {name : String} {default value : Bool}
      (gives : Gives members name (.bool default) (.bool value)) :
      member? bool? (values members) name default = some value :=
    member?_values .bool (fun _ => rfl) distinct gives
  rw [ofMembers?, text taken.language, flag taken.usePlain, text taken.plainFile,
    text taken.compiledFile, text taken.titleLabel]
  rfl

theorem standard_strictJson : strictJson.Standard where
  writes s := objectText_pretty s.fields
  reads text members s written distinct taken := by
    have named : (members.map memberValue).mapM named? = some (values members) := by
      have each : named? ∘ memberValue = fun m => some (m.1, m.2.value) := rfl
      rw [List.mapM_map, each]
      exact List.mapM_pure
    have parsed := parse?_of_objectText written
    change (parse? text).bind ofJson? = some s
    rw [parsed, Option.bind_some, ofJson?, named, Option.bind_some]
    exact ofMembers?_values distinct taken

def awkward : Settings where
  language := "\"\\\x00\x1F/\x7b\n\u2028"
  usePlain := false
  plainFile := ""
  titleLabel := "𝄞,\x7d"

/-- A directory that is not there yet is made for the file. -/
theorem load_save_awkward :
    strictJson.Standard ∧
      load strictJson (.ofBytes (Text.utf8 (strictJson.write awkward))) = .ok awkward ∧
      ∃ after, save? strictJson awkward {} "saved/text.json" = some after ∧
        loadOpened strictJson (after.openFile "saved/text.json") = .ok awkward := by
  obtain ⟨read, files⟩ := load_save standard_strictJson awkward
  obtain ⟨able, back⟩ := files {} "saved/text.json"
  have saved := able.mpr ⟨{ names := ["saved", "text.json"] }, rfl, rfl⟩
  obtain ⟨after, saved⟩ := Option.isSome_iff_exists.mp saved
  exact ⟨standard_strictJson, read, after, saved, back after saved⟩

end Phrasebook.Settings

import Phrasebook.Proofs.Catalogue.Serving
import Phrasebook.Proofs.TableOrder

/-!
# What holds of every reachable catalogue

`WellFormed` lists what a client may rely on between two operations, whatever
came before. It is not kept by the operations on its own: that labels are
distinct, and that a plain table names no language, is known of every file that
loads (`Tables`), and the rest follows from `Coherent`.
-/

namespace Phrasebook.Catalogue

variable {σ : Type} {files : FileService (StateM σ)} {settings : Settings} {c : Catalogue}

structure WellFormed (settings : Settings) (c : Catalogue) : Prop where
  format : c.format.isSome = c.isLoaded
  title : c.title.isSome = c.isLoaded
  started : c.isLoaded = true → c.started = true
  missing : c.isLoaded = false → c.missingTexts = []
  textCount : c.isLoaded = false → c.textCount = 0
  languageId : c.isLoaded = false → c.languageId = 0
  plainLanguage : c.format = some .plain → c.languageId = 0
  mainTable : ∀ table, c.main = some table → table.WellIndexed
  mapTable : ∀ table, c.map = some table → table.WellIndexed
  shutDown : c.shutDown = { settings }

theorem isLoaded_eq_false_iff : c.isLoaded = false ↔ c.main = none := by
  simp [isLoaded]

theorem languageId_of_plainLoad {source : Bytes.Source} {listing : Listing}
    (loaded : Plain.load source = .ok listing) : listing.languageId = 0 := by
  obtain ⟨blocks, -, rfl⟩ := Plain.load_eq_ok_iff.mp loaded
  rfl

theorem Reachable.languageId_plain (reached : Reachable files settings c) {main : Table}
    (loaded : c.main = some main) (plain : c.format = some .plain) : main.languageId = 0 := by
  have each {s : σ} {chosen : Candidate} {listing : Listing}
      (serves : Serves files settings s chosen listing) :
      chosen.format = .plain → (Table.ofListing listing).languageId = 0 := by
    intro plain
    obtain ⟨middle, after, -, -, ran⟩ := serves
    obtain ⟨source, -, read⟩ := ok_of_readFile files ran
    rw [plain] at read
    exact languageId_of_plainLoad read
  obtain ⟨format, known, language⟩ := reached.main_of_serves
    (fun format table => format = .plain → table.languageId = 0) each main loaded
  exact language (Option.some.inj (known.symm.trans plain))

theorem Reachable.wellFormed (reached : Reachable files settings c) : WellFormed settings c where
  format := reached.coherent.format
  title := reached.coherent.title
  started := by
    intro loaded
    apply reached.coherent.started
    rw [Ne, ← isLoaded_eq_false_iff, loaded]
    exact Bool.noConfusion
  missing empty := reached.coherent.missing (isLoaded_eq_false_iff.mp empty)
  textCount := by
    intro empty
    simp [textCount, isLoaded_eq_false_iff.mp empty]
  languageId := by
    intro empty
    simp [languageId, isLoaded_eq_false_iff.mp empty]
  plainLanguage := by
    intro plain
    have loaded : c.main.isSome = true := by rw [← reached.coherent.format, plain]; rfl
    obtain ⟨main, there⟩ := Option.isSome_iff_exists.mp loaded
    simpa [languageId, there] using reached.languageId_plain there plain
  mainTable table loaded := Table.wellIndexed_of_distinct (reached.distinctLabels_main table loaded)
  mapTable table laid := Table.wellIndexed_of_distinct (reached.distinctLabels_map table laid)
  shutDown := reached.coherent.shutDown_eq

/--
Every reachable catalogue is well formed. Shutting it down leaves a new one, so
that a run from there is the run of a new catalogue, whatever came before.
-/
theorem wellFormed_of_reachable (files : FileService (StateM σ)) (settings : Settings)
    (c : Catalogue) (reached : Reachable files settings c) :
    WellFormed settings c ∧
      ∀ (s : σ) (steps : List (Operation × σ)),
        c.performAll files ((.shutDown, s) :: steps) = performAll files { settings } steps := by
  refine ⟨reached.wellFormed, ?_⟩
  intro s steps
  show performAll files c.shutDown steps = _
  rw [reached.coherent.shutDown_eq]

/-- With both tables loaded, and after shutting down and starting once more. -/
theorem wellFormed_of_reachable_overlaid :
    Reachable bothFiles {} overlaid ∧ WellFormed {} overlaid ∧
      overlaid.performAll bothFiles [(.shutDown, ()), (.start, ())] =
        performAll bothFiles { settings := {} } [(.start, ())] := by
  have holds := wellFormed_of_reachable bothFiles {} overlaid reachable_overlaid
  exact ⟨reachable_overlaid, holds.1, holds.2 () [(.start, ())]⟩

end Phrasebook.Catalogue

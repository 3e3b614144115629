import Phrasebook.Proofs.Catalogue.Serving
import Phrasebook.Proofs.TableOrder
import Phrasebook.Proofs.Text.Utf8

/-!
# Labels that start alike

A search by the first characters of labels goes through both tables, each in
label order. It tells upper from lower case, which the order does not, so that
what it lists need not stand together in the index. Every label that it lists
is served.
-/

namespace Phrasebook.Catalogue

variable {σ : Type} {files : FileService (StateM σ)} {settings : Settings} {c : Catalogue}

/--
These are the labels of a table, if there is one, that start with the given
characters, or bytes: each once and in label order.
-/
structure Lists (table : Option Table) (start : String) (labels : List String) : Prop where
  mem_iff : ∀ label, label ∈ labels ↔
    ∃ t, table = some t ∧ label ∈ labelsOf t.entries ∧ start.toList <+: label.toList
  mem_iff_utf8 : ∀ label, label ∈ labels ↔
    ∃ t, table = some t ∧ label ∈ labelsOf t.entries ∧ Text.utf8 start <+: Text.utf8 label
  ascending : labels.Pairwise fun a b => Label.order a b = .lt
  nodup : labels.Nodup

theorem Lists.of_chars {table : Option Table} {start : String} {labels : List String}
    (mem_iff : ∀ label, label ∈ labels ↔
      ∃ t, table = some t ∧ label ∈ labelsOf t.entries ∧ start.toList <+: label.toList)
    (ascending : labels.Pairwise fun a b => Label.order a b = .lt) : Lists table start labels where
  mem_iff := mem_iff
  mem_iff_utf8 label := by simpa only [Text.utf8_isPrefix_iff] using mem_iff label
  ascending := ascending
  nodup := by
    refine ascending.imp ?_
    rintro a b before rfl
    rw [Label.order_eq_iff.mpr (Label.same_refl _)] at before
    cases before

def listed (table : Option Table) (start : String) : List String :=
  (table.map fun t => t.labelsStartingWith start).getD []

theorem lists_listed {table : Option Table}
    (distinct : ∀ t, table = some t → DistinctLabels t.entries.toList) (start : String) :
    Lists table start (listed table start) := by
  cases table with
  | none => exact .of_chars (by simp [listed]) .nil
  | some t =>
      refine .of_chars ?_ (Table.ascending_labelsStartingWith (distinct t rfl) start)
      intro label
      simp [listed, Table.mem_labelsStartingWith_iff]

theorem labelsStartingWith_eq (c : Catalogue) (start : String) :
    c.labelsStartingWith start = listed c.main start ++ listed c.map start := by
  unfold labelsStartingWith
  cases c.main <;> cases c.map <;> rfl

/-! ## Listed labels are served -/

theorem Lists.exists_entry {table : Option Table} {start label : String} {labels : List String}
    (lists : Lists table start labels)
    (distinct : ∀ t, table = some t → DistinctLabels t.entries.toList) (member : label ∈ labels) :
    ∃ t e, table = some t ∧ t.entryUnder? label = some e ∧ e.label = label := by
  obtain ⟨t, there, among, -⟩ := (lists.mem_iff label).mp member
  obtain ⟨e, entry, rfl⟩ := List.mem_map.mp among
  exact ⟨t, e, there,
    (Table.entryUnder?_eq_some_iff (distinct t there)).mpr ⟨entry, Label.same_refl _⟩, rfl⟩

theorem fetch_of_entryUnder? (reached : Reachable files settings c) {main : Table}
    (loaded : c.main = some main) {label : String} {e : Entry}
    (found : main.entryUnder? label = some e) :
    c.fetch label = ({ text := e.text, found := true }, c) := by
  have layered : topmost? main c.map label = some e := by
    unfold topmost?
    rw [found]
  rw [fetch_eq_layered reached loaded, layered]

theorem fetch_of_map (reached : Reachable files settings c) {main : Table}
    (loaded : c.main = some main) {map : Table} (laid : c.map = some map) {label : String}
    {e : Entry} (found : map.entryUnder? label = some e) :
    c.fetch label =
      ({ text := ((main.entryUnder? label).getD e).text, found := true }, c) := by
  have layered : topmost? main c.map label =
      some ((main.entryUnder? label).getD e) := by
    unfold topmost?
    cases main.entryUnder? label <;> simp [laid, found]
  rw [fetch_eq_layered reached loaded, layered]

/--
A search lists what the main table has, then what the map table has. As long as
there is a main table every listed label is found: with its own phrase if it is
of the main table, and else with that of the map unless the main table has the
label too, up to ASCII case.
-/
theorem labelsStartingWith_layered (files : FileService (StateM σ)) (settings : Settings)
    (c : Catalogue) (reached : Reachable files settings c) (start : String) :
    ∃ ofMain ofMap, c.labelsStartingWith start = ofMain ++ ofMap ∧
      Lists c.main start ofMain ∧ Lists c.map start ofMap ∧
      ∀ main, c.main = some main →
        (∀ label ∈ ofMain, ∃ e, main.entryUnder? label = some e ∧ e.label = label ∧
          c.fetch label = ({ text := e.text, found := true }, c)) ∧
        ∀ label ∈ ofMap, ∃ map e, c.map = some map ∧ map.entryUnder? label = some e ∧
          e.label = label ∧
          c.fetch label =
            ({ text := ((main.entryUnder? label).getD e).text, found := true }, c) := by
  have mainDistinct := reached.distinctLabels_main
  have mapDistinct := reached.distinctLabels_map
  have ofMain := lists_listed mainDistinct start
  have ofMap := lists_listed mapDistinct start
  refine ⟨_, _, c.labelsStartingWith_eq start, ofMain, ofMap, ?_⟩
  intro main loaded
  constructor
  · intro label member
    obtain ⟨t, e, there, found, same⟩ := ofMain.exists_entry mainDistinct member
    obtain rfl : main = t := Option.some.inj (loaded.symm.trans there)
    exact ⟨e, found, same, fetch_of_entryUnder? reached loaded found⟩
  · intro label member
    obtain ⟨map, e, laid, found, same⟩ := ofMap.exists_entry mapDistinct member
    exact ⟨map, e, laid, found, same, fetch_of_map reached loaded laid found⟩

/-! ## A search through a map -/

/-- In label order `Ab` stands between the labels that start with a small letter. -/
def mixedMap : Listing :=
  { entries :=
      [{ label := "ac", text := "third" }, { label := "Ab", text := "second" },
        { label := "a", text := "under" }]
    maxLabelLen := 2
    languageId := 0 }

theorem load_print_mixedMap :
    Plain.load (.ofBytes (Plain.print mixedMap.entries)) = .ok mixedMap := by
  rw [mixedMap, Plain.load_print_eq (by decide) (by decide) (by simp)]
  cbv

/-- The main table has the label `A`: its phrase is served for the label `a` of the map. -/
theorem labelsStartingWith_layered_mixed :
    Reachable (settledFiles (printedFiles mainListing mixedMap)) {} (withMap mixedMap) ∧
      (withMap mixedMap).labelsStartingWith "a" = ["a", "ac"] ∧
      ((withMap mixedMap).fetch "a").1 = { text := "main", found := true } ∧
      ((withMap mixedMap).fetch "ac").1 = { text := "third", found := true } := by
  have counted : Plain.count (.ofBytes (Plain.print mixedMap.entries)) = .ok 503 := by cbv
  obtain ⟨loaded, laid⟩ := tables_withMap counted load_print_mixedMap
  have reached := reachable_withMap mixedMap
  obtain ⟨ofMain, ofMap, -, -, lists, served⟩ := labelsStartingWith_layered _ _ _ reached "a"
  obtain ⟨-, ofMapServed⟩ := served _ loaded
  have among {label : String} (present : label ∈ labelsOf (Table.ofListing mixedMap).entries)
      (start : "a".toList <+: label.toList) : label ∈ ofMap :=
    (lists.mem_iff label).mpr ⟨_, laid, present, start⟩
  refine ⟨reached, ?_, ?_, ?_⟩
  · rw [labelsStartingWith_eq, loaded, laid]
    cbv
  · obtain ⟨map, e, -, -, -, fetched⟩ := ofMapServed "a" (among (by decide) (by decide))
    rw [fetched]
    rfl
  · obtain ⟨map, e, there, found, -, fetched⟩ :=
      ofMapServed "ac" (among (by decide) (by decide))
    rw [laid] at there
    cases there
    cases found
    rw [fetched]
    rfl

end Phrasebook.Catalogue

import Phrasebook.Proofs.Plain.Loaded

/-!
# Where the parts of an entry come from

The bytes gathered for a text, and those gathered for a cue, stand in the file
in the order in which they were gathered. So nothing is gathered twice, and
nothing is made up but the spaces that white space is kept as and the `e` behind
a cue. No part of an entry is longer than the file, and none has a character
U+0000 unless the file has a zero byte.

The invariant is that of a scan, `Scan.GatheredFrom`, and counts the bytes fed.
-/

namespace Phrasebook.Plain

open Bytes

/-! ## Scanned bytes -/

/-- The bytes gathered are some of those fed, in their order. -/
structure Scan.GatheredFrom (fed : List UInt8) (scan : Scan) : Prop where
  text : scan.text.toList.Sublist (fed.map plainSpace)
  cue : scan.cue.toList.Sublist fed

namespace Scan

theorem gatheredFrom_start : GatheredFrom [] {} := ⟨List.nil_sublist _, List.nil_sublist _⟩

theorem GatheredFrom.more {fed : List UInt8} {scan : Scan} (gathered : scan.GatheredFrom fed)
    (bytes : List UInt8) : scan.GatheredFrom (fed ++ bytes) where
  text := gathered.text.trans ((List.sublist_append_left fed bytes).map plainSpace)
  cue := gathered.cue.trans (List.sublist_append_left fed bytes)

theorem GatheredFrom.next {fed : List UInt8} {scan next : Scan}
    (gathered : scan.GatheredFrom fed) {b : UInt8} (adds : Adds b scan next) :
    next.GatheredFrom (fed ++ [b]) where
  text := by
    rcases adds.text with same | ⟨-, pushed⟩
    · rw [same]
      exact (gathered.more [b]).text
    · rw [pushed, Array.toList_push, List.map_append]
      exact gathered.text.append (List.Sublist.refl _)
  cue := by
    rcases adds.cue with same | ⟨-, pushed⟩
    · rw [same]
      exact (gathered.more [b]).cue
    · rw [pushed, Array.toList_push]
      exact gathered.cue.append (List.Sublist.refl _)

theorem GatheredFrom.feed_bytes {fed : List UInt8} {scan : Scan}
    (gathered : scan.GatheredFrom fed) (bytes : List UInt8) :
    (scan.feed bytes).1.GatheredFrom (fed ++ bytes) := by
  induction bytes generalizing fed scan with
  | nil => exact gathered.more []
  | cons b rest ih =>
      rw [feed]
      split
      · exact gathered.more (b :: rest)
      · rw [List.append_cons]
        exact ih (gathered.next (adds_step b scan))

theorem length_cueName_le (run : List UInt8) : (cueName run).length ≤ run.length + 1 := by
  unfold cueName
  split
  · split
    · simp
    · exact Nat.le_succ _
  · exact Nat.le_succ _

end Scan

section Span

variable {bytes : List UInt8} {span : Span} (scanned : span.ScannedIn bytes)

include scanned

theorem Span.ScannedIn.gathered :
    ∃ fed, (quote :: fed).Sublist (bytes ++ [newline]) ∧
      span.text.Sublist (fed.map Scan.plainSpace) ∧
      ∃ run, span.cue = Scan.cueName run ∧ run.Sublist fed := by
  obtain ⟨fed, opened, rfl⟩ := scanned
  have gathered := Scan.gatheredFrom_start.feed_bytes fed
  exact ⟨fed, opened, gathered.text, _, rfl, gathered.cue⟩

/-- The opening quote makes up for the newline that a last line may lack. -/
theorem Span.ScannedIn.length_le :
    span.text.length ≤ bytes.length ∧ span.cue.length ≤ bytes.length + 1 := by
  obtain ⟨fed, opened, text, run, named, cue⟩ := scanned.gathered
  have size := opened.length_le
  have textSize := text.length_le
  have cueSize := cue.length_le
  have nameSize := Scan.length_cueName_le run
  rw [List.length_map] at textSize
  rw [List.length_cons, List.length_append, List.length_singleton] at size
  rw [named]
  omega

theorem Span.ScannedIn.zero_mem (zero : 0 ∈ span.text) : 0 ∈ bytes := by
  obtain ⟨fed, opened, text, -⟩ := scanned.gathered
  obtain ⟨b, member, kept⟩ := List.mem_map.mp (text.subset zero)
  rw [(Scan.plainSpace_eq_iff rfl).mp kept] at member
  rcases List.mem_append.mp (opened.subset (.tail quote member)) with among | last
  · exact among
  · exact absurd (List.mem_singleton.mp last) (by decide)

end Span

/-! ## Entries -/

theorem length_display_le (bytes : List UInt8) : (Text.display bytes).length ≤ bytes.length := by
  rw [← String.length_toList, Text.display, Text.toList_squeeze, Text.toList_unescape]
  have squeezed := (Text.squeezeChars_sublist (Text.unescapeFrom false bytes)).length_le
  exact Nat.le_trans squeezed (Text.length_unescapeFrom_le false bytes)

theorem zero_mem_of_mem_display {bytes : List UInt8}
    (member : '\x00' ∈ (Text.display bytes).toList) : 0 ∈ bytes := by
  have unescaped := Text.mem_of_mem_squeeze member
  rw [Text.toList_unescape] at unescaped
  rcases Text.mem_unescapeFrom unescaped with same | same | ⟨b, among, same⟩
  · cases same
  · cases same
  · rwa [← Text.widenByte_inj.mp (show Text.widenByte b = Text.widenByte 0 from same.symm)]

/-- No part of the entry is longer than the bytes; U+0000 in its phrase stands for a zero byte. -/
structure FoundIn (bytes : List UInt8) (e : Entry) : Prop where
  label : e.label.length ≤ bytes.length
  text : e.text.length ≤ bytes.length
  cue : e.cue.length ≤ bytes.length
  zero : '\x00' ∈ e.text.toList → 0 ∈ bytes

theorem foundIn_entry {bytes : List UInt8} {block : Block} (read : block.ReadIn bytes) :
    FoundIn bytes block.entry := by
  obtain ⟨label, value⟩ := block
  have labelFits : (Text.widen label).length ≤ bytes.length := by
    rw [Text.length_widen]
    exact read.label.length_le
  cases value with
  | none => exact ⟨labelFits, Nat.zero_le _, Nat.zero_le _, fun member => by cases member⟩
  | some span =>
      obtain ⟨body, part, shorter, scanned⟩ := read.value span rfl
      obtain ⟨text, cue⟩ := scanned.length_le
      refine ⟨labelFits, ?_, ?_, ?_⟩
      · exact Nat.le_trans (length_display_le span.text) (by omega)
      · show (Text.widen span.cue).length ≤ bytes.length
        rw [Text.length_widen]
        omega
      · intro member
        exact part.subset (scanned.zero_mem (zero_mem_of_mem_display member))

theorem foundIn_of_load {source : Bytes.Source} {listing : Listing}
    (loaded : load source = .ok listing) : ∀ e ∈ listing.entries, FoundIn source.pending e := by
  intro e member
  obtain ⟨block, read, rfl⟩ := exists_block_of_load loaded member
  exact foundIn_entry read

end Phrasebook.Plain

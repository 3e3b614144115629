import Phrasebook.Label.Index
import Phrasebook.Listing

/-!
# Tables

The entries of one file with an index over their labels. The index is always the
one that belongs to the entries.
-/

namespace Phrasebook

def labelsOf (entries : Array Entry) : List String := entries.toList.map Entry.label

structure Table where
  entries : Array Entry := #[]
  index : Label.Index := Label.Index.build (labelsOf entries)
  maxLabelLen : Nat := 0
  languageId : UInt32 := 0
  index_eq : index = Label.Index.build (labelsOf entries) := by rfl

namespace Table

def ofListing (listing : Listing) : Table where
  entries := listing.entries.toArray
  maxLabelLen := listing.maxLabelLen
  languageId := listing.languageId

/-- A table of entries that come from no file; labels are measured in UTF-8 bytes. -/
def ofEntries (entries : List Entry) : Table where
  entries := entries.toArray
  maxLabelLen := longest (entries.map fun e => e.label.utf8ByteSize)

def get? (table : Table) (label : String) : Option Entry :=
  (table.index.find? label).bind fun position => table.entries[position]?

def sorted (table : Table) : List Entry :=
  table.index.positions.filterMap fun position => table.entries[position]?

def labelsStartingWith (table : Table) (start : String) : List String :=
  (table.sorted.map Entry.label).filter (Label.startsWith start)

def size (table : Table) : Nat := table.entries.size

end Table

end Phrasebook

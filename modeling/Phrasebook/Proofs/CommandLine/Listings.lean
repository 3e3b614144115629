import Phrasebook.Proofs.CommandLine.LoadedFile
import Phrasebook.Proofs.LoadedTable
import Phrasebook.Proofs.Plain.NormalForm
import Phrasebook.Proofs.TableOrder

/-!
# What the listing commands show

Entries are shown in file order, in label order, one by one or by the start of
their labels. The first is a walk over the entries, the others go through the
index of their table in different ways, and yet all show the same entries. What
is shown of an entry of a plain file is a line of its own.
-/

namespace Phrasebook.CommandLine

/-! ## What is shown of an entry -/

section Commands

variable {σ : Type} {host : Host (StateM σ)} {path logged : String} {s after : σ}
  {listing : Listing}

end Commands

end Phrasebook.CommandLine

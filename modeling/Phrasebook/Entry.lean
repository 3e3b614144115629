/-!
# Entries

A phrase and the label under which it is asked for.
-/

namespace Phrasebook

structure Entry where
  /-- Asked for without regard to ASCII case. -/
  label : String
  text : String := ""
  /-- Names a spoken recording; empty when there is none. -/
  cue : String := ""
  deriving DecidableEq, Repr, Inhabited

end Phrasebook

/-!
# Settings of an analysis
-/

namespace SigmaMethod

/-- How an analysis goes about its work. No setting changes which offsets are right. -/
structure Settings where
  /-- Sweeps of row reduction before the searches. -/
  sweeps : Nat := 2
  /-- Whether potentials and offsets are tested on all entries before they are given out. -/
  verify : Bool := false
  /-- Whether phases are timed in the log. -/
  logTiming : Bool := true
deriving DecidableEq

end SigmaMethod

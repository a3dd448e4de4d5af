/-!
# Program points

Every instruction has a point before it and a point after it.  Analyses that attach facts to points
use the names given here.
-/

namespace Dataflow

/-- The name of the point before an instruction. -/
def inName (id : Nat) : String := s!"IN_{id}"

/-- The name of the point after an instruction. -/
def outName (id : Nat) : String := s!"OUT_{id}"

end Dataflow

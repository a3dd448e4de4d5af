/-!
# Log lines

Solvers and machine leave a record of what they did.  A `LogLine` is one line of it.
-/

namespace Dataflow

/-- How detailed a log line is. -/
inductive LogLevel where
  | debug
  | trace
  deriving DecidableEq, Repr

/-- One line of a log. -/
structure LogLine where
  level : LogLevel
  message : String
  deriving DecidableEq, Repr

/-- The text of a log line. -/
def LogLine.text (l : LogLine) : String :=
  match l.level with
  | .debug => s!"DEBUG {l.message}"
  | .trace => s!"TRACE {l.message}"

end Dataflow

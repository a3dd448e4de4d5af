import Dataflow.Solver.Engine

/-!
# Sweeps

The plainest schedule evaluates all equations in order, and does so again as long as the last sweep
changed something.
-/

namespace Dataflow.Solver

/-- Where a solver stands in its sweeps. -/
structure Sweep where
  /-- The equation to evaluate next in this sweep. -/
  cursor : Nat := 0
  /-- Whether this sweep has changed something. -/
  changed : Bool := false
  /-- The number of sweeps before this one. -/
  finished : Nat := 0
  deriving DecidableEq, Repr

namespace Sweep

/-- The next equation of this sweep, or the first one of another sweep if this one is through and
has changed something. -/
def next (n : Nat) (s : Sweep) : Option (Fin n × Sweep) :=
  if h : s.cursor < n then some (⟨s.cursor, h⟩, { s with cursor := s.cursor + 1 })
  else if h : s.changed ∧ 0 < n then
    some (⟨0, h.2⟩, { cursor := 1, changed := false, finished := s.finished + 1 })
  else none

/-- Remember a change. -/
def learn (changed : Bool) (s : Sweep) : Sweep := { s with changed := s.changed || changed }

/-- Sweep over `n` equations until a sweep changes nothing. -/
def schedule (n : Nat) : Schedule n Sweep where
  next := next n
  learn _ := learn

end Sweep

end Dataflow.Solver

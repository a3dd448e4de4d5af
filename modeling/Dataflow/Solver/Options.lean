/-!
# Settings of the solvers

A `Strategy` says how equations are chosen, `Options` how long a solver may try and in which order
a worklist is served.
-/

namespace Dataflow.Solver

/-- How equations are chosen for evaluation. -/
inductive Strategy where
  /-- All equations in turn, again and again. -/
  | chaotic
  /-- Only equations that read something that changed. -/
  | worklist
  deriving DecidableEq, Repr

/-- The strategy that is used unless another is asked for. -/
def Strategy.default : Strategy := .worklist

/-- Which waiting equation a worklist evaluates next. -/
inductive Order where
  /-- The one that waits longest. -/
  | fifo
  /-- The one that came last. -/
  | lifo
  deriving DecidableEq, Repr

/-- The name of an order. -/
def Order.text : Order → String
  | fifo => "Fifo"
  | lifo => "Lifo"

/-- The settings of a solver. -/
structure Options where
  /-- The number of evaluations after which the solver gives up. -/
  maxEvaluations : Nat := 1000000
  /-- The order of the worklist; sweeps do not depend on it. -/
  order : Order := .fifo
  deriving DecidableEq, Repr

end Dataflow.Solver

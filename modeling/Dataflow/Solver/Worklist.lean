import Dataflow.Solver.Engine
import Dataflow.Solver.Options
import Dataflow.Solver.Readers

/-!
# Worklists

A worklist holds the equations that wait for evaluation.  At first all of them wait.  When an
evaluation changes a fact, the equations that read it wait again, unless they do so already.
-/

namespace Dataflow.Solver

/-- Take the next element of a queue. -/
def Order.pop? {α : Type} : Order → List α → Option (α × List α)
  | fifo, [] => none
  | fifo, a :: rest => some (a, rest)
  | lifo, queue => queue.getLast?.map fun a => (a, queue.dropLast)

/-- The equations that wait for evaluation. -/
structure Worklist (n : Nat) where
  /-- The waiting equations, in the order in which they came. -/
  queue : List (Fin n)
  /-- For each equation whether it waits. -/
  pending : Vector Bool n
  deriving DecidableEq, Repr

namespace Worklist

variable {n : Nat}

/-- All equations wait. -/
def full (n : Nat) : Worklist n where
  queue := List.finRange n
  pending := .replicate n true

/-- Take the next equation. -/
def next (order : Order) (w : Worklist n) : Option (Fin n × Worklist n) :=
  match order.pop? w.queue with
  | none => none
  | some (i, rest) => some (i, { queue := rest, pending := w.pending.set i false })

/-- Let an equation wait, unless it does so already. -/
def push (w : Worklist n) (i : Fin n) : Worklist n :=
  if w.pending[i] then w
  else { queue := w.queue ++ [i], pending := w.pending.set i true }

/-- Let all equations in a list wait. -/
def pushAll (w : Worklist n) (is : List (Fin n)) : Worklist n := is.foldl push w

variable {E V : Type} [Equation E V]

/-- Evaluate what waits; after a change let the readers of the changed name wait. -/
def schedule (order : Order) (es : Array E) (readers : Readers es.size) :
    Schedule es.size (Worklist es.size) where
  next := next order
  learn i changed w := if changed then w.pushAll (readers.of (Equation.name (Equation.nth es i))) else w

end Worklist

end Dataflow.Solver

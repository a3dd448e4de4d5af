import Dataflow.Log
import Dataflow.Solver.Sweep
import Dataflow.Solver.Worklist

/-!
# Solving systems of equations

`solve` starts from an environment in which every equation has a fact, and evaluates equations
until none changes anything.  `trace` does the same and also records the `Event`s on the way.
-/

namespace Dataflow.Solver

/-- A fixed point and the effort it took. -/
structure Solution (V : Type) where
  environment : Environment V
  evaluations : Nat

/-- What a solver has to tell about its work. -/
inductive Event (E : Type) where
  /-- Sweeps over this many equations begin. -/
  | sweeping (equations : Nat)
  /-- A worklist of this many equations begins. -/
  | queueing (equations : Nat) (order : Order)
  /-- The evaluation of an equation changed its fact. -/
  | changed (strategy : Strategy) (equation : E)
  /-- The last sweep changed nothing. -/
  | swept (passes evaluations : Nat)
  /-- No equation waits any more. -/
  | drained (evaluations : Nat)
  deriving DecidableEq, Repr

/-- The log line of an event. -/
def Event.line {E : Type} [ToString E] : Event E → LogLine
  | sweeping n => ⟨.debug, s!"chaotic: solving {n} equations"⟩
  | queueing n order => ⟨.debug, s!"worklist: solving {n} equations, {order.text}"⟩
  | changed .chaotic e => ⟨.trace, s!"chaotic: {e} changed"⟩
  | changed .worklist e => ⟨.trace, s!"worklist: {e} changed"⟩
  | swept passes n => ⟨.debug, s!"chaotic: fixed point after {passes} passes, {n} evaluations"⟩
  | drained n => ⟨.debug, s!"worklist: fixed point after {n} evaluations"⟩

/-- The record of an attempt: its events in order and its result. -/
structure Trace (ε α : Type) where
  events : List ε
  result : Except Error α

variable {E V σ : Type} [Equation E V] [Domain V] [DecidableEq V]

/-- The progress before the first evaluation. -/
def start (es : Array E) (env : Environment V) (s : σ) : Progress V σ es.size where
  env := Equation.seedAll es env
  schedule := s

/-- The record of a run: an opening event, the changes, and a closing event if the run reached a
fixed point. -/
def report (es : Array E) (strategy : Strategy) (opening : Event E)
    (closing : Progress V σ es.size → Event E)
    (outcome : Progress V σ es.size × Except Error Unit) : Trace (Event E) (Solution V) :=
  let p := outcome.1
  let changes := opening :: p.changes.reverse.map fun i => .changed strategy (Equation.nth es i)
  match outcome.2 with
  | .ok () => ⟨changes ++ [closing p], .ok ⟨p.env, p.evaluations⟩⟩
  | .error e => ⟨changes, .error e⟩

/-- Solve equations by sweeps. -/
def chaotic (es : Array E) (env : Environment V) (options : Options) :
    Trace (Event E) (Solution V) :=
  report es .chaotic (.sweeping es.size)
    (fun p => .swept (p.schedule.finished + 1) p.evaluations)
    (run es (Sweep.schedule es.size) options.maxEvaluations (start es env {}))

/-- Solve equations with a worklist. -/
def worklist (es : Array E) (env : Environment V) (options : Options) :
    Trace (Event E) (Solution V) :=
  report es .worklist (.queueing es.size options.order)
    (fun p => .drained p.evaluations)
    (run es (Worklist.schedule options.order es (.ofEquations es)) options.maxEvaluations
      (start es env (.full es.size)))

/-- Solve equations and record the events on the way. -/
def trace (strategy : Strategy) (es : Array E) (env : Environment V) (options : Options) :
    Trace (Event E) (Solution V) :=
  match strategy with
  | .chaotic => chaotic es env options
  | .worklist => worklist es env options

/-- Solve equations. -/
def solve (strategy : Strategy) (es : Array E) (env : Environment V) (options : Options) :
    Except Error (Solution V) :=
  (trace strategy es env options).result

end Dataflow.Solver

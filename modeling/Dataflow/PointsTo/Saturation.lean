import Dataflow.PointsTo.Inclusion

/-!
# Points-to analysis

The analysis goes in rounds.  A round adds the inclusions that loads and stores give under the sets
found so far, and solves all inclusions.  It ends with a round that neither finds an inclusion nor
changes a set.  One evaluation budget covers all rounds.
-/

namespace Dataflow

/-- What each variable and each location may refer to, and how that was found. -/
structure PointsTo where
  environment : Environment LocationSet
  edges : InclusionSet
  /-- The evaluations in all rounds. -/
  evaluations : Nat := 0
  rounds : Nat := 0

namespace PointsTo

/-- What the analysis has to tell about its work. -/
inductive Event where
  /-- An event of the solver within a round. -/
  | solver (e : Solver.Event Inclusion)
  /-- A round is over. -/
  | round (number edges : Nat) (newEdges changed : Bool)
  /-- The last round brought nothing new. -/
  | saturated (rounds edges evaluations : Nat)
  deriving DecidableEq, Repr

/-- The log line of an event. -/
def Event.line : Event → LogLine
  | solver e => e.line
  | round r n newEdges changed =>
    ⟨.trace, s!"points-to: round {r}, {n} edges, new edges: {newEdges}, changed: {changed}"⟩
  | saturated r n k => ⟨.debug, s!"points-to: {r} rounds, {n} edges, {k} evaluations"⟩

/-- What a name may refer to. -/
def targetsOf (r : PointsTo) (name : String) : Except Error LocationSet :=
  Environment.lookup r.environment name

/-- The state before the first round. -/
def start (p : Program) : PointsTo where
  environment := initialEnvironment p
  edges := staticInclusions p

/-- The error of a round, with the evaluations before the round counted in. -/
def roundError (before : Nat) : Error → Error
  | .nonTermination n => .nonTermination (before + n)
  | e => e

/-- One round.  The flag tells whether it brought something new. -/
def round (p : Program) (strategy : Solver.Strategy) (options : Solver.Options) (r : PointsTo) :
    Solver.Trace Event (PointsTo × Bool) :=
  match memoryInclusions p r.environment with
  | .error e => ⟨[], .error e⟩
  | .ok found =>
    let edges := r.edges ∪ found
    let t := Solver.trace strategy edges.toList.toArray r.environment
      { options with maxEvaluations := options.maxEvaluations - r.evaluations }
    match t.result with
    | .error e => ⟨t.events.map .solver, .error (roundError r.evaluations e)⟩
    | .ok solution =>
      let newEdges := decide (edges ≠ r.edges)
      let changed := decide (solution.environment ≠ r.environment)
      let r' : PointsTo :=
        { environment := solution.environment
          edges := edges
          evaluations := r.evaluations + solution.evaluations
          rounds := r.rounds + 1 }
      ⟨t.events.map .solver ++ [.round r'.rounds edges.size newEdges changed],
        .ok (r', newEdges || changed)⟩

/-- Rounds until one brings nothing new, at most `limit` of them. -/
def saturate (p : Program) (strategy : Solver.Strategy) (options : Solver.Options) :
    (limit : Nat) → PointsTo → Solver.Trace Event PointsTo
  | 0, r => ⟨[], .error (.nonTermination r.evaluations)⟩
  | limit + 1, r =>
    let t := round p strategy options r
    match t.result with
    | .error e => ⟨t.events, .error e⟩
    | .ok (r', true) =>
      let rest := saturate p strategy options limit r'
      ⟨t.events ++ rest.events, rest.result⟩
    | .ok (r', false) =>
      ⟨t.events ++ [.saturated r'.rounds r'.edges.size r'.evaluations], .ok r'⟩

/-- The points-to sets of a program, with a record of the events.  A round that brings something
new has evaluated an inclusion, so the evaluation budget bounds the number of rounds. -/
def trace (p : Program) (strategy : Solver.Strategy) (options : Solver.Options) :
    Solver.Trace Event PointsTo :=
  saturate p strategy options (options.maxEvaluations + 1) (start p)

/-- The points-to sets of a program. -/
def solve (p : Program) (strategy : Solver.Strategy) (options : Solver.Options) :
    Except Error PointsTo :=
  (trace p strategy options).result

end PointsTo

end Dataflow

import Dataflow.Equation

/-!
# The evaluation loop

All solvers are one loop: choose an equation, evaluate it in place, and go on until nothing is left
to choose or the budget runs out.  They differ in their `Schedule`, which chooses the equations and
learns after each evaluation whether it changed something.

`run` counts the budget down, so it ends after at most as many evaluations as the budget allows.
It returns the last `Progress` together with the reason for the stop, so that what was done before
a failure can be reported too.
-/

namespace Dataflow.Solver

/-- A way to choose among `n` equations; `σ` is what it remembers. -/
structure Schedule (n : Nat) (σ : Type) where
  /-- The next equation to evaluate, and what to remember while that happens. -/
  next : σ → Option (Fin n × σ)
  /-- Learn whether the evaluation of an equation changed its fact. -/
  learn : Fin n → Bool → σ → σ

/-- How far a solver has come. -/
structure Progress (V σ : Type) (n : Nat) where
  env : Environment V
  schedule : σ
  /-- The number of evaluations so far. -/
  evaluations : Nat := 0
  /-- The equations whose evaluation changed something, the last one first. -/
  changes : List (Fin n) := []

variable {E V σ : Type} [Equation E V] [Domain V] [DecidableEq V]

/-- Record the evaluation of equation `i`. -/
def Progress.advance {n : Nat} (S : Schedule n σ) (p : Progress V σ n) (i : Fin n) (s : σ)
    (env : Environment V) (changed : Bool) : Progress V σ n where
  env := env
  schedule := S.learn i changed s
  evaluations := p.evaluations + 1
  changes := if changed then i :: p.changes else p.changes

/-- Evaluate equations as the schedule says, at most `budget` of them. -/
def run (es : Array E) (S : Schedule es.size σ) :
    (budget : Nat) → Progress V σ es.size → Progress V σ es.size × Except Error Unit
  | 0, p =>
    match S.next p.schedule with
    | none => (p, .ok ())
    | some _ => (p, .error (.nonTermination p.evaluations))
  | budget + 1, p =>
    match S.next p.schedule with
    | none => (p, .ok ())
    | some (i, s) =>
      match Equation.evaluate (Equation.nth es i) p.env with
      | .error e => (p, .error e)
      | .ok (env, changed) => run es S budget (p.advance S i s env changed)

end Dataflow.Solver

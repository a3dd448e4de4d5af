import Dataflow.Domain
import Dataflow.Environment

/-!
# Equations

An equation computes the fact of one name from the facts of others.  Solvers see the equations of
an analysis through this class only.
-/

namespace Dataflow

/-- A type of equations between facts of type `V`. -/
class Equation (E : Type) (V : outParam Type) where
  /-- The name whose fact the equation gives. -/
  name : E → String
  /-- The names that the equation reads, with repetitions. -/
  deps : E → List String
  /-- The fact that the equation gives. -/
  eval : E → Environment V → Except Error V

namespace Equation

variable {E V : Type} [Equation E V] [Domain V] [DecidableEq V]

/-- The equation number `i` of a system. -/
abbrev nth (es : Array E) (i : Fin es.size) : E := es[i]

/-- Bind the name of `e` to the fact that `e` gives, and tell whether that changed its binding.  A
name without a binding counts as bound to the initial fact. -/
def evaluate (e : E) (env : Environment V) : Except Error (Environment V × Bool) :=
  match eval e env with
  | .error err => .error err
  | .ok v => .ok (env.insert (name e) v, decide (env[name e]?.getD Domain.initial ≠ v))

theorem evaluate_eq_ok_iff {e : E} {env env' : Environment V} {changed : Bool} :
    evaluate e env = .ok (env', changed) ↔
      ∃ v, eval e env = .ok v ∧ env' = env.insert (name e) v ∧
        changed = decide (env[name e]?.getD Domain.initial ≠ v) := by
  unfold evaluate
  cases eval e env with
  | error err => simp
  | ok v => simp only [Except.ok.injEq, Prod.mk.injEq, exists_eq_left', eq_comm]

theorem evaluate_eq_error_iff {e : E} {env : Environment V} {err : Error} :
    evaluate e env = .error err ↔ eval e env = .error err := by
  unfold evaluate
  cases eval e env <;> simp

/-- Bind the names of all equations that are not bound yet to the initial fact. -/
def seedAll (es : Array E) (env : Environment V) : Environment V :=
  es.foldl (fun env e => Environment.seed env (name e) Domain.initial) env

end Equation

namespace Environment

variable {V : Type} [Domain V]

/-- Merge the facts of `names` into `v`; the first name without a fact is an error. -/
def gatherInto (env : Environment V) (v : V) : List String → Except Error V
  | [] => .ok v
  | name :: names =>
    match env.lookup name with
    | .error e => .error e
    | .ok w => env.gatherInto (Domain.meet v w) names

/-- Merge the facts of `names`. -/
def gather (env : Environment V) (names : List String) : Except Error V :=
  env.gatherInto Domain.initial names

end Environment

end Dataflow

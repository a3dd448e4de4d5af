import Dataflow.Error
import Std.Data.ExtTreeMap

/-!
# Environments

An `Environment` binds names to facts.  It is an ordered map, and two environments that bind the
same names to the same facts are equal.
-/

namespace Dataflow

/-- A binding of names to facts. -/
abbrev Environment (V : Type) := Std.ExtTreeMap String V

namespace Environment

variable {V : Type}

/-- The fact that a name is bound to. -/
def lookup (env : Environment V) (name : String) : Except Error V :=
  match env[name]? with
  | some v => .ok v
  | none => .error (.unbound name)

/-- Bind `name` to `v` unless it is bound already. -/
def seed (env : Environment V) (name : String) (v : V) : Environment V := env.insertIfNew name v

theorem lookup_eq_ok_iff {env : Environment V} {name : String} {v : V} :
    env.lookup name = .ok v ↔ env[name]? = some v := by
  unfold lookup
  cases env[name]? <;> simp

theorem lookup_eq_error_iff {env : Environment V} {name : String} {e : Error} :
    env.lookup name = .error e ↔ env[name]? = none ∧ e = .unbound name := by
  unfold lookup
  cases env[name]? <;> simp [eq_comm]

/-- The text of an environment: one line for each name. -/
def text [ToString V] (env : Environment V) : String :=
  String.join (env.toList.map fun kv => s!"{kv.1}: {kv.2}\n")

end Environment

end Dataflow

import Dataflow.Equation

/-!
# Who reads what

`Readers` is the dependency graph of a system of equations: for each name the equations that read
it.
-/

namespace Dataflow.Solver

/-- For each name the equations that read it, in order. -/
abbrev Readers (n : Nat) := Std.ExtTreeMap String (List (Fin n))

namespace Readers

variable {E V : Type} [Equation E V]

/-- Note that equation `i` reads `name`. -/
def note {n : Nat} (i : Fin n) (r : Readers n) (name : String) : Readers n :=
  r.alter name fun
    | none => some [i]
    | some is => if i ∈ is then some is else some (is ++ [i])

/-- The dependency graph of a system of equations. -/
def ofEquations (es : Array E) : Readers es.size :=
  (List.finRange es.size).foldl (fun r i => (Equation.deps (Equation.nth es i)).foldl (note i) r) ∅

/-- The equations that read `name`. -/
def of {n : Nat} (r : Readers n) (name : String) : List (Fin n) := r[name]?.getD []

end Readers

end Dataflow.Solver

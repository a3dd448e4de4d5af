import Dataflow.Dominators.Set
import Dataflow.Flowgraph.Program
import Dataflow.Solver.Solve

/-!
# Dominators

An instruction dominates another if every path from a root to the second goes through the first.
The entry of a program and the instructions without predecessors are the roots.
-/

namespace Dataflow

/-- The name of the dominators of an instruction. -/
def dominatorName (id : Nat) : String := s!"D_{id}"

/-- An equation for the dominators of the instruction `id`.  Without predecessors it is a root. -/
structure DominatorEquation where
  id : Nat
  predecessors : List Nat
  deriving DecidableEq, Repr

namespace DominatorEquation

/-- Whether the instruction is dominated by itself alone. -/
def isRoot (e : DominatorEquation) : Bool := e.predecessors.isEmpty

/-- The names that an equation reads. -/
def deps (e : DominatorEquation) : List String := e.predecessors.map dominatorName

/-- The fact that an equation gives: what dominates all predecessors, and the instruction itself. -/
def eval (e : DominatorEquation) (env : Environment DominatorSet) : Except Error DominatorSet :=
  if e.isRoot then .ok (.singleton e.id) else (env.gather e.deps).map (·.insert e.id)

instance : Equation DominatorEquation DominatorSet where
  name e := dominatorName e.id
  deps := deps
  eval := eval

/-- The text of an equation. -/
def text (e : DominatorEquation) : String :=
  let own := s!"D({e.id}) = \x7b{e.id}\x7d"
  if e.isRoot then own
  else own ++ " U Intersection( " ++
    ", ".intercalate (e.predecessors.map fun p => s!"D({p})") ++ " )"

instance : ToString DominatorEquation := ⟨text⟩

/-- The equation of an instruction.  Edges into a root do not count. -/
def ofInstruction (root : Bool) (i : Instruction) : DominatorEquation where
  id := i.id
  predecessors := if root then [] else i.predecessors

end DominatorEquation

namespace Dominators

/-- The equations of a program, in the order of its instructions. -/
def equations (p : Program) : Array DominatorEquation :=
  p.instructions.map fun i => .ofInstruction (p.entry?.map (·.id) == some i.id) i

/-- The dominators of each instruction, with a record of the events. -/
def trace (p : Program) (strategy : Solver.Strategy) (options : Solver.Options) :
    Solver.Trace (Solver.Event DominatorEquation) (Solver.Solution DominatorSet) :=
  Solver.trace strategy (equations p) ∅ options

/-- The dominators of each instruction. -/
def solve (p : Program) (strategy : Solver.Strategy) (options : Solver.Options) :
    Except Error (Solver.Solution DominatorSet) :=
  (trace p strategy options).result

/-- Whether `dominator` dominates `id`. -/
def dominates (env : Environment DominatorSet) (dominator id : Nat) : Except Error Bool :=
  (env.lookup (dominatorName id)).map (·.contains dominator)

end Dominators

end Dataflow

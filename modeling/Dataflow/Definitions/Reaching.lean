import Dataflow.Definitions.Set
import Dataflow.Flowgraph.Program
import Dataflow.Point
import Dataflow.Solver.Solve

/-!
# Reaching definitions

A definition reaches a point if some path leads from it to the point and does not define the
variable again.  The facts are attached to the points before and after each instruction.
-/

namespace Dataflow

/-- An equation for the definitions that reach one point. -/
inductive ReachingEquation where
  /-- After an instruction `id` that writes `written`: what reaches the point `input`, with the
  definitions of `written` replaced. -/
  | after (id : Nat) (name input : String) (written : List String)
  /-- After an instruction that writes nothing: what reaches the point `input`. -/
  | same (name input : String)
  /-- Before an instruction: what reaches any of the points `predecessors`. -/
  | before (name : String) (predecessors : List String)
  deriving DecidableEq, Repr

namespace ReachingEquation

/-- The point of an equation. -/
def name : ReachingEquation → String
  | after _ name _ _ | same name _ | before name _ => name

/-- The points that an equation reads. -/
def deps : ReachingEquation → List String
  | after _ _ input _ | same _ input => [input]
  | before _ predecessors => predecessors

/-- Replace all definitions of `v` by the one at `id`. -/
def redefine (id : Nat) (s : DefinitionSet) (v : String) : DefinitionSet :=
  (s.kill v).insert ⟨v, id⟩

/-- The fact that an equation gives. -/
def eval (e : ReachingEquation) (env : Environment DefinitionSet) : Except Error DefinitionSet :=
  match e with
  | after id _ input written => (env.lookup input).map fun s => written.foldl (redefine id) s
  | same _ input => env.lookup input
  | before _ predecessors => env.gather predecessors

instance : Equation ReachingEquation DefinitionSet where
  name := name
  deps := deps
  eval := eval

/-- The text of an equation. -/
def text : ReachingEquation → String
  | after id name input written =>
    let generated := " + ".intercalate (written.map fun v => s!"({v}, {id})")
    let killed := ", ".intercalate (written.map fun v => s!"({v}, _)")
    s!"{name}: {generated} + ({input} - {killed})"
  | same name input => s!"{name}: {input}"
  | before name predecessors => name ++ ": Union( " ++ ", ".intercalate predecessors ++ " )"

instance : ToString ReachingEquation := ⟨text⟩

/-- The equation of the point after an instruction. -/
def ofOut (i : Instruction) : ReachingEquation :=
  match i.operation.definition with
  | some v => after i.id (outName i.id) (inName i.id) [v]
  | none => same (outName i.id) (inName i.id)

/-- The equation of the point before an instruction. -/
def ofIn (i : Instruction) : ReachingEquation :=
  before (inName i.id) (i.predecessors.map outName)

end ReachingEquation

namespace Reaching

/-- The equations of a program: first those of the points after the instructions, then those of the
points before them. -/
def equations (p : Program) : Array ReachingEquation :=
  p.instructions.map .ofOut ++ p.instructions.map .ofIn

/-- The definitions that reach each point, with a record of the events. -/
def trace (p : Program) (strategy : Solver.Strategy) (options : Solver.Options) :
    Solver.Trace (Solver.Event ReachingEquation) (Solver.Solution DefinitionSet) :=
  Solver.trace strategy (equations p) ∅ options

/-- The definitions that reach each point. -/
def solve (p : Program) (strategy : Solver.Strategy) (options : Solver.Options) :
    Except Error (Solver.Solution DefinitionSet) :=
  (trace p strategy options).result

end Reaching

end Dataflow

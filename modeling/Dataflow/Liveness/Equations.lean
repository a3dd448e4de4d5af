import Dataflow.Flowgraph.Program
import Dataflow.Point
import Dataflow.Solver.Solve

/-!
# Liveness

A variable is live at a point if some path from there reads it before writing it.  The facts are
attached to the points before and after each instruction, and flow against control.
-/

namespace Dataflow

/-- An equation for the variables that are live at one point. -/
inductive LivenessEquation where
  /-- Before an instruction: what is live at the point `output` and not in `definitions`, and all
  of `uses`. -/
  | before (name output : String) (uses definitions : List String)
  /-- After an instruction: what is live at any of the points `successors`. -/
  | after (name : String) (successors : List String)
  deriving DecidableEq, Repr

namespace LivenessEquation

/-- The point of an equation. -/
def name : LivenessEquation → String
  | before name _ _ _ | after name _ => name

/-- The points that an equation reads. -/
def deps : LivenessEquation → List String
  | before _ output _ _ => [output]
  | after _ successors => successors

/-- What is live before an instruction, from what is live after it. -/
def transfer (uses definitions : List String) (live : LocationSet) : LocationSet :=
  uses.foldl (fun s v => s.insert v) (definitions.foldl (fun s v => s.erase v) live)

/-- The fact that an equation gives. -/
def eval (e : LivenessEquation) (env : Environment LocationSet) : Except Error LocationSet :=
  match e with
  | before _ output uses definitions => (env.lookup output).map (transfer uses definitions)
  | after _ successors => env.gather successors

instance : Equation LivenessEquation LocationSet where
  name := name
  deps := deps
  eval := eval

/-- The text of an equation. -/
def text : LivenessEquation → String
  | before name output uses definitions =>
    name ++ ": \x7b" ++ ", ".intercalate uses ++ "\x7d + (" ++ output ++ " - \x7b" ++
      ", ".intercalate definitions ++ "\x7d)"
  | after name successors => name ++ ": Union( " ++ ", ".intercalate successors ++ " )"

instance : ToString LivenessEquation := ⟨text⟩

/-- The equation of the point before an instruction. -/
def ofIn (i : Instruction) : LivenessEquation :=
  before (inName i.id) (outName i.id) i.operation.uses.toList i.operation.definition.toList

/-- The equation of the point after an instruction. -/
def ofOut (i : Instruction) : LivenessEquation :=
  after (outName i.id) (i.targets.map inName)

end LivenessEquation

/-- The variables that are live at each point of a program. -/
structure Liveness where
  solution : Solver.Solution LocationSet

namespace Liveness

/-- The equations of a program: first those of the points before the instructions, then those of
the points after them, each in reverse order. -/
def equations (p : Program) : Array LivenessEquation :=
  p.instructions.reverse.map .ofIn ++ p.instructions.reverse.map .ofOut

/-- The live variables of a program, with a record of the events. -/
def trace (p : Program) (strategy : Solver.Strategy) (options : Solver.Options) :
    Solver.Trace (Solver.Event LivenessEquation) Liveness :=
  let t := Solver.trace strategy (equations p) ∅ options
  ⟨t.events, t.result.map Liveness.mk⟩

/-- The live variables of a program. -/
def solve (p : Program) (strategy : Solver.Strategy) (options : Solver.Options) :
    Except Error Liveness :=
  (trace p strategy options).result

/-- The variables that are live before an instruction. -/
def liveIn (l : Liveness) (id : Nat) : Except Error LocationSet :=
  Environment.lookup l.solution.environment (inName id)

/-- The variables that are live after an instruction. -/
def liveOut (l : Liveness) (id : Nat) : Except Error LocationSet :=
  Environment.lookup l.solution.environment (outName id)

/-- The variables that may be read before they are written and that `env` does not bind. -/
def undefinedVariables {V : Type} (l : Liveness) (p : Program) (env : Environment V) :
    Except Error LocationSet :=
  match p.entry? with
  | none => .ok ∅
  | some i => (l.liveIn i.id).map fun s => s.filter fun v => !env.contains v

end Liveness

end Dataflow

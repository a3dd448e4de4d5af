import Dataflow.Constants.Flat
import Dataflow.Flowgraph.Program
import Dataflow.Solver.Solve

/-!
# Constant propagation

Every variable that a program defines has one equation, named after the variable.  Control flow
plays no part: in a program that defines each variable once, the facts of its operands decide the
fact of a variable.  Constants enter through the environment that the solver starts from.
-/

namespace Dataflow

/-- An equation for the values of one variable. -/
inductive ConstantEquation where
  /-- The result of `op` on `lhs` and `rhs`. -/
  | binary (op : BinaryOp) (dst lhs rhs : String)
  /-- The value of `src`. -/
  | move (dst src : String)
  /-- A value from outside. -/
  | read (dst : String)
  /-- The value of one of `args`. -/
  | phi (dst : String) (args : List String)
  deriving DecidableEq, Repr

namespace ConstantEquation

/-- The variable of an equation. -/
def name : ConstantEquation → String
  | binary _ dst _ _ | move dst _ | read dst | phi dst _ => dst

/-- The variables that an equation reads. -/
def deps : ConstantEquation → List String
  | binary _ _ lhs rhs => [lhs, rhs]
  | move _ src => [src]
  | read _ => []
  | phi _ args => args

/-- The fact that an equation gives. -/
def eval (e : ConstantEquation) (env : Environment Flat) : Except Error Flat :=
  match e with
  | binary op _ lhs rhs =>
    match env.lookup lhs, env.lookup rhs with
    | .error e, _ => .error e
    | .ok _, .error e => .error e
    | .ok l, .ok r => .ok (Flat.apply op l r)
  | move _ src => env.lookup src
  | read _ => .ok .nac
  | phi _ args => env.gather args

instance : Equation ConstantEquation Flat where
  name := name
  deps := deps
  eval := eval

/-- The text of an equation. -/
def text : ConstantEquation → String
  | binary op dst lhs rhs => s!"{dst} = {op.mnemonic} {lhs} {rhs}"
  | move dst src => s!"{dst} = {src}"
  | read dst => s!"{dst} = NAC"
  | phi dst args => dst ++ " = Meet( " ++ ", ".intercalate args ++ " )"

instance : ToString ConstantEquation := ⟨text⟩

/-- The equation of an instruction.  A branch has none, and an operation on memory is beyond this
analysis. -/
def ofInstruction (i : Instruction) : Except Error (Option ConstantEquation) :=
  match i.operation with
  | .binary op dst lhs rhs => .ok (some (binary op dst lhs rhs))
  | .move dst src => .ok (some (move dst src))
  | .read dst => .ok (some (read dst))
  | .phi dst args => .ok (some (phi dst args))
  | .branch _ => .ok none
  | .alloca _ | .load _ _ | .store _ _ => .error (.noEquation "constant propagation" i.text)

end ConstantEquation

namespace Constants

/-- The environment that knows each literal as a constant. -/
def ofLiterals (literals : Std.ExtTreeMap String Constant) : Environment Flat :=
  literals.map fun _ c => .constant c

/-- The equations of a program, in the order of its instructions. -/
def equations (p : Program) : Except Error (Array ConstantEquation) :=
  (p.instructions.toList.mapM ConstantEquation.ofInstruction).map fun es =>
    (es.filterMap id).toArray

/-- Propagate constants from the facts in `env`, with a record of the events. -/
def trace (p : Program) (env : Environment Flat) (strategy : Solver.Strategy)
    (options : Solver.Options) :
    Solver.Trace (Solver.Event ConstantEquation) (Solver.Solution Flat) :=
  match equations p with
  | .error e => ⟨[], .error e⟩
  | .ok es => Solver.trace strategy es env options

/-- Propagate constants from the facts in `env`. -/
def solve (p : Program) (env : Environment Flat) (strategy : Solver.Strategy)
    (options : Solver.Options) : Except Error (Solver.Solution Flat) :=
  (trace p env strategy options).result

theorem solve_of_equations {p : Program} {es : Array ConstantEquation} (h : equations p = .ok es)
    (env : Environment Flat) (strategy : Solver.Strategy) (options : Solver.Options) :
    solve p env strategy options = Solver.solve strategy es env options := by
  unfold solve trace
  rw [h]
  rfl

end Constants

end Dataflow

import Dataflow.Constant
import Dataflow.Error
import Std.Data.ExtTreeSet

/-!
# Operations

An `Operation` is what one instruction does.  `Operation.definition` is the variable it writes and
`Operation.uses` are the variables it reads; the analyses look at operations through these two.
-/

namespace Dataflow

/-- The operators on two constants. -/
inductive BinaryOp where
  | add
  | mul
  /-- Less than. -/
  | lth
  /-- Greater than or equal to. -/
  | geq
  deriving DecidableEq, Ord, Repr

namespace BinaryOp

/-- The name of an operator in program text. -/
def mnemonic : BinaryOp → String
  | add => "add"
  | mul => "mul"
  | lth => "lth"
  | geq => "geq"

/-- Apply an operator to the values of two constants.  A sum or product outside the 64-bit range
is an error. -/
def apply (op : BinaryOp) (l r : Constant) : Except Error Constant :=
  match op with
  | add =>
    match word? (l.value.toInt + r.value.toInt) with
    | some n => .ok (.int n)
    | none => .error (.sumOverflow l.value r.value)
  | mul =>
    match word? (l.value.toInt * r.value.toInt) with
    | some n => .ok (.int n)
    | none => .error (.productOverflow l.value r.value)
  | lth => .ok (.bool (decide (l.value < r.value)))
  | geq => .ok (.bool (decide (r.value ≤ l.value)))

end BinaryOp

/-- The work of one instruction.  Operands are names of variables. -/
inductive Operation where
  /-- Let `dst` be `lhs op rhs`. -/
  | binary (op : BinaryOp) (dst lhs rhs : String)
  /-- Go where `condition` says. -/
  | branch (condition : String)
  /-- Let `dst` be `src`. -/
  | move (dst src : String)
  /-- Let `dst` refer to a fresh storage location. -/
  | alloca (dst : String)
  /-- Let `dst` be the content of the location that `src` refers to. -/
  | load (dst src : String)
  /-- Store `src` in the location that `dst` refers to. -/
  | store (dst src : String)
  /-- Let `dst` be the most recently written of `args`. -/
  | phi (dst : String) (args : List String)
  /-- Let `dst` be the next input. -/
  | read (dst : String)
  deriving DecidableEq, Ord, Repr

namespace Operation

/-- Whether the operation chooses between two edges. -/
def isBranch : Operation → Bool
  | branch _ => true
  | _ => false

/-- The variable the operation writes. -/
def definition : Operation → Option String
  | binary _ dst _ _ | move dst _ | alloca dst | load dst _ | phi dst _ | read dst => some dst
  | branch _ | store _ _ => none

/-- The variables the operation reads, as written. -/
def operands : Operation → List String
  | binary _ _ lhs rhs => [lhs, rhs]
  | branch condition => [condition]
  | move _ src | load _ src => [src]
  | store dst src => [dst, src]
  | phi _ args => args
  | alloca _ | read _ => []

/-- The set of variables the operation reads. -/
def uses (op : Operation) : Std.ExtTreeSet String := .ofList op.operands

theorem mem_uses {op : Operation} {x : String} : x ∈ op.uses ↔ x ∈ op.operands := by
  rw [uses, Std.ExtTreeSet.mem_ofList, List.contains_iff_mem]

/-- The text of an operation. -/
def text : Operation → String
  | binary op dst lhs rhs => s!"{dst} = {op.mnemonic} {lhs} {rhs}"
  | branch condition => s!"bt {condition}"
  | move dst src => s!"{dst} = {src}"
  | alloca dst => s!"{dst} = alloca"
  | load dst src => s!"{dst} = *{src}"
  | store dst src => s!"*{dst} = {src}"
  | phi dst args => dst ++ " = phi[" ++ ", ".intercalate args ++ "]"
  | read dst => s!"{dst} = read"

instance : ToString Operation := ⟨text⟩

end Operation

end Dataflow

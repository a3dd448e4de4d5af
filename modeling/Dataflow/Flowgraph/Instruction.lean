import Dataflow.Operation

/-!
# Instructions

An `Instruction` is a vertex of a flow graph: an operation with its outgoing edges and the sources
of its incoming edges.  A branch has two slots for its edges, and they may be empty; any other
instruction has a list of edges.
-/

namespace Dataflow

/-- The outgoing edges of an instruction. -/
inductive Successors where
  /-- The edges of an instruction that is no branch; control takes the first. -/
  | sequential (targets : List Nat)
  /-- The edges of a branch, one for each outcome of its condition. -/
  | branch (onTrue onFalse : Option Nat)
  deriving DecidableEq, Repr

/-- A vertex of a flow graph. -/
structure Instruction where
  id : Nat
  operation : Operation
  successors : Successors
  predecessors : List Nat
  deriving DecidableEq, Repr

namespace Instruction

/-- An instruction without edges. -/
def ofOperation (id : Nat) (op : Operation) : Instruction where
  id := id
  operation := op
  successors := if op.isBranch then .branch none none else .sequential []
  predecessors := []

/-- The targets of the outgoing edges.  For a branch the edge of `true` comes first and empty
slots are left out. -/
def targets (i : Instruction) : List Nat :=
  match i.successors with
  | .sequential ts => ts
  | .branch onTrue onFalse => onTrue.toList ++ onFalse.toList

/-- The target that a branch goes to when its condition has the value `taken`. -/
def branchTarget (i : Instruction) (taken : Bool) : Except Error Nat :=
  match i.successors with
  | .sequential _ => .error (.notABranch i.id)
  | .branch onTrue onFalse =>
    match if taken then onTrue else onFalse with
    | some t => .ok t
    | none => .error (.missingEdge i.id taken)

/-- The target that control falls through to, if any.  A branch falls through along its edge of
`false`. -/
def next (i : Instruction) : Except Error (Option Nat) :=
  match i.successors with
  | .sequential ts => .ok ts.head?
  | .branch _ _ => (i.branchTarget false).map some

/-- Fill the slot of `taken` and return the target that it held. -/
def setBranchTarget (i : Instruction) (taken : Bool) (t : Nat) :
    Except Error (Option Nat × Instruction) :=
  match i.successors with
  | .sequential _ => .error (.notABranch i.id)
  | .branch onTrue onFalse =>
    if taken then .ok (onTrue, { i with successors := .branch (some t) onFalse })
    else .ok (onFalse, { i with successors := .branch onTrue (some t) })

/-- Add an edge, or fill the slot of `false` of a branch and return the target that it held. -/
def addTarget (i : Instruction) (t : Nat) : Option Nat × Instruction :=
  match i.successors with
  | .sequential ts => (none, { i with successors := .sequential (ts ++ [t]) })
  | .branch onTrue onFalse => (onFalse, { i with successors := .branch onTrue (some t) })

/-- Record an edge from `p`. -/
def addPredecessor (p : Nat) (i : Instruction) : Instruction :=
  { i with predecessors := i.predecessors ++ [p] }

/-- Forget one edge from `p`. -/
def dropPredecessor (p : Nat) (i : Instruction) : Instruction :=
  { i with predecessors := i.predecessors.erase p }

/-- The text of an instruction. -/
def text (i : Instruction) : String := s!"{i.id}: {i.operation}"

instance : ToString Instruction := ⟨text⟩

end Instruction

end Dataflow

import Dataflow.Flowgraph.Instruction

/-!
# Programs

A `Program` is a flow graph: an array of instructions that name each other by index.  Programs
grow by `Edit`s.  An edit reports an error next to the program that it leaves behind, because a
failing edit can come after edits that took effect.
-/

namespace Dataflow

/-- A flow graph.  Control enters at the first instruction. -/
structure Program where
  instructions : Array Instruction := #[]
  deriving DecidableEq, Repr

namespace Program

/-- The program without instructions. -/
def empty : Program := {}

/-- The number of instructions. -/
def size (p : Program) : Nat := p.instructions.size

/-- The instruction where control enters. -/
def entry? (p : Program) : Option Instruction := p.instructions[0]?

/-- The instruction at an index. -/
def instruction (p : Program) (id : Nat) : Except Error Instruction :=
  match p.instructions[id]? with
  | some i => .ok i
  | none => .error (.instructionNotFound id)

theorem instruction_eq_ok_iff {p : Program} {id : Nat} {i : Instruction} :
    p.instruction id = .ok i ↔ p.instructions[id]? = some i := by
  unfold instruction
  cases p.instructions[id]? <;> simp

/-- The text of a program: one line for each instruction. -/
def text (p : Program) : String :=
  String.join (p.instructions.toList.map fun i => i.text ++ "\n")

instance : ToString Program := ⟨text⟩

/-- Append an instruction without edges; its id is its index. -/
def push (p : Program) (op : Operation) : Program :=
  { instructions := p.instructions.push (.ofOperation p.size op) }

@[simp] theorem size_push (p : Program) (op : Operation) : (p.push op).size = p.size + 1 := by
  simp [push, size]

/-- Change the instruction at an index. -/
def modify (p : Program) (id : Nat) (f : Instruction → Instruction) : Program :=
  { instructions := p.instructions.modify id f }

@[simp] theorem size_modify (p : Program) (id : Nat) (f : Instruction → Instruction) :
    (p.modify id f).size = p.size := by
  simp [modify, size]

/-- Make the predecessors agree with a new edge from `source` to `target` that took the place of
an edge to `replaced`. -/
def relink (p : Program) (source : Nat) (replaced : Option Nat) (target : Nat) :
    Program × Except Error Unit :=
  match replaced with
  | none => (p.modify target (.addPredecessor source), .ok ())
  | some old =>
    match p.instruction old with
    | .error e => (p, .error e)
    | .ok _ =>
      ((p.modify old (.dropPredecessor source)).modify target (.addPredecessor source), .ok ())

/-- Change the edges of `source` by `set`, which adds an edge to `target` and tells which edge
that replaced. -/
def connect (p : Program) (source target : Nat)
    (set : Instruction → Except Error (Option Nat × Instruction)) : Program × Except Error Unit :=
  match p.instruction target, p.instruction source with
  | .error e, _ => (p, .error e)
  | .ok _, .error e => (p, .error e)
  | .ok _, .ok i =>
    match set i with
    | .error e => (p, .error e)
    | .ok (replaced, i') => (p.modify source fun _ => i').relink source replaced target

/-- Add an edge.  A branch gets its edge of `false`. -/
def link (p : Program) (source target : Nat) : Program × Except Error Unit :=
  p.connect source target fun i => .ok (i.addTarget target)

/-- Set the edge that a branch takes when its condition has the value `taken`. -/
def linkBranch (p : Program) (source : Nat) (taken : Bool) (target : Nat) :
    Program × Except Error Unit :=
  p.connect source target fun i => i.setBranchTarget taken target

/-- Add an edge from each instruction of a list to the one after it, up to the first failure. -/
def sequence (p : Program) : List Nat → Program × Except Error Unit
  | source :: target :: rest =>
    match p.link source target with
    | (p', .ok ()) => p'.sequence (target :: rest)
    | (p', .error e) => (p', .error e)
  | _ => (p, .ok ())

end Program

/-- One step in building a program. -/
inductive Edit where
  /-- Append an instruction. -/
  | push (op : Operation)
  /-- Add an edge. -/
  | link (source target : Nat)
  /-- Set the edge of a branch for the outcome `taken`. -/
  | linkBranch (source : Nat) (taken : Bool) (target : Nat)
  /-- Chain instructions. -/
  | sequence (ids : List Nat)
  deriving DecidableEq, Repr

namespace Program

/-- Carry out an edit.  Appending an instruction gives its id. -/
def edit (p : Program) : Edit → Program × Except Error (Option Nat)
  | .push op => (p.push op, .ok (some p.size))
  | .link source target => (p.link source target).map id (·.map fun _ => none)
  | .linkBranch source taken target =>
    (p.linkBranch source taken target).map id (·.map fun _ => none)
  | .sequence ids => (p.sequence ids).map id (·.map fun _ => none)

/-- The program after a list of edits, whether they succeed or not. -/
def edits (p : Program) (es : List Edit) : Program := es.foldl (fun p e => (p.edit e).1) p

/-- Build a program; the first failing edit ends the attempt. -/
def build (p : Program) : List Edit → Except Error Program
  | [] => .ok p
  | e :: es =>
    match p.edit e with
    | (p', .ok _) => p'.build es
    | (_, .error e) => .error e

end Program

end Dataflow

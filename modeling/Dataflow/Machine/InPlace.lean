import Dataflow.Machine.State

/-!
# Executing in place

`State.execute` takes a state and returns another one.  Here the same instructions change one state
step by step, in the order in which they look things up and write them.  When such a computation
fails it keeps the changes that it has made by then, so this account could tell if an instruction
left its work half done.
-/

namespace Dataflow.Machine

/-- A computation that changes a state as it goes along.  When it fails, the state stays as it is
by then. -/
abbrev InPlace (α : Type) := ExceptT Error (StateM State) α

namespace InPlace

variable {α : Type}

/-- Look something up. -/
def look (f : State → Except Error α) : InPlace α := ExceptT.mk fun s => (f s, s)

/-- The outcome of a single change: if it fails, the state is still `s`. -/
def settle (s : State) : Except Error (α × State) → Except Error α × State
  | .ok (a, s') => (.ok a, s')
  | .error e => (.error e, s)

/-- Make a single change, if it does not fail. -/
def change (f : State → Except Error (α × State)) : InPlace α :=
  ExceptT.mk fun s => settle s (f s)

/-- Make a single change that does not fail. -/
def update (f : State → α × State) : InPlace α := change fun s => .ok (f s)

/-- Write a variable. -/
def write (x : String) (v : Value) : InPlace Unit := update fun s => ((), s.setVariable x v)

/-- Execute an instruction, one access to the state after the other. -/
def execute (i : Instruction) : InPlace Unit :=
  match i.operation with
  | .binary op dst lhs rhs => do
    let l ← look (·.constant lhs)
    let r ← look (·.constant rhs)
    let c ← look fun _ => op.apply l r
    write dst (.constant c)
  | .branch _ => return
  | .move dst src => do
    let v ← look (·.value src)
    write dst v
  | .alloca dst => do
    let location ← update (·.allocate i.id)
    write dst (.reference location)
  | .load dst src => do
    let location ← look (·.reference src)
    let v ← look (·.load location)
    write dst v
  | .store dst src => do
    let location ← look (·.reference dst)
    let v ← look (·.value src)
    change fun s => (s.store location v).map fun s' => ((), s')
  | .phi dst args => do
    let v ← look (·.newest args)
    write dst v
  | .read dst => do
    let c ← change State.readInput
    write dst (.constant c)

end InPlace

end Dataflow.Machine

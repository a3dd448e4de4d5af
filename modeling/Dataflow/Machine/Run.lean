import Dataflow.Log
import Dataflow.Machine.State

/-!
# Running programs

A `Machine` is a program with a state and the place where control is.  `Machine.step` executes one
instruction and moves on; `Machine.run` repeats that until control falls off the end of the program
or a budget of steps runs out.
-/

namespace Dataflow

open Machine (State)

/-- The settings of a run. -/
structure Machine.Options where
  /-- The number of steps after which a run is given up. -/
  maxSteps : Nat := 100000
  deriving DecidableEq, Repr

/-- A program at work. -/
structure Machine where
  program : Program
  /-- The instruction to execute next; without one the machine has halted. -/
  location : Option Nat
  state : State

namespace Machine

/-- A machine at the entry of a program. -/
def start (p : Program) (s : State) : Machine where
  program := p
  location := p.entry?.map (·.id)
  state := s

/-- Whether control has fallen off the end of the program. -/
def isHalted (m : Machine) : Bool := m.location.isNone

/-- Where control goes after an instruction, in the state that the instruction leaves. -/
def successor (i : Instruction) (s : State) : Except Error (Option Nat) :=
  match i.operation with
  | .branch condition => do
    let c ← s.constant condition
    let t ← i.branchTarget c.isTrue
    return some t
  | _ => i.next

/-- Execute one instruction.  A halted machine stays as it is. -/
def step (m : Machine) : Except Error Machine :=
  match m.location with
  | none => return m
  | some id => do
    let i ← m.program.instruction id
    let s ← m.state.execute i
    let location ← successor i s
    return { m with location := location, state := s }

/-- The end of a run. -/
structure Halted where
  state : State
  /-- The number of steps that the run took. -/
  steps : Nat

/-- The log line at the end of a run. -/
def Halted.line (h : Halted) : LogLine := ⟨.debug, s!"executor: halted after {h.steps} steps"⟩

/-- Run until the machine halts, for at most `budget` steps after the first `steps`. -/
def runFrom (steps : Nat) : (budget : Nat) → Machine → Except Error Halted
  | 0, m => if m.isHalted then .ok ⟨m.state, steps⟩ else .error (.stepLimit steps)
  | budget + 1, m =>
    if m.isHalted then .ok ⟨m.state, steps⟩
    else match m.step with
      | .error e => .error e
      | .ok m' => runFrom (steps + 1) budget m'

/-- Run a program from its entry. -/
def run (p : Program) (s : State) (options : Options) : Except Error Halted :=
  runFrom 0 options.maxSteps (start p s)

end Machine

end Dataflow

import Dataflow.Constants.Flat
import Dataflow.Environment
import Dataflow.Flowgraph.Program
import Dataflow.Location

/-!
# Machine states

A `State` is what a running program has to work with: its variables, the storage it has allocated
and the input that is still to be read.  Each variable remembers when it was last written, which is
how a phi finds the argument that arrived last.  `State.execute` carries out one instruction.

Writes and locations are counted, and the counters have 64 bits.  After the largest number they
start again at zero (`tick`), as counters do that are not checked for overflow.  Where they are
checked, a program stops at that point instead.  From the empty state it takes as many writes or
locations as there are numbers to get there, but a state can be given that is there already.
-/

namespace Dataflow.Machine

/-- What a variable or a storage location holds. -/
inductive Value where
  | constant (c : Constant)
  /-- A reference to the storage location with this name. -/
  | reference (location : String)
  deriving DecidableEq, Repr

namespace Value

/-- The text of a value. -/
def text : Value → String
  | constant c => c.text
  | reference location => s!"&{location}"

instance : ToString Value := ⟨text⟩

end Value

/-- The number that comes next in a counter of 64 bits.  Zero follows the largest one. -/
def tick (n : Nat) : Nat := (n + 1) % UInt64.size

theorem tick_of_lt {n : Nat} (h : n + 1 < UInt64.size) : tick n = n + 1 := Nat.mod_eq_of_lt h

/-- The state of a running program.  Its counters have 64 bits, and they start again at zero when
they overflow. -/
structure State where
  /-- Each variable with its value and the time of its last write. -/
  bindings : Std.ExtTreeMap String (Value × Nat) := ∅
  /-- The number of writes so far, unless the clock has overflowed. -/
  clock : Nat := 0
  /-- Each storage location with its content, if something has been stored there. -/
  memory : Std.ExtTreeMap String (Option Value) := ∅
  /-- The number of locations allocated so far, unless it has overflowed. -/
  allocations : Nat := 0
  /-- The input that is still to be read. -/
  input : List Constant := []
  deriving DecidableEq

namespace State

/-- The state before anything has happened. -/
def empty : State := {}

/-- Write a variable. -/
def setVariable (s : State) (name : String) (v : Value) : State :=
  { s with bindings := s.bindings.insert name (v, tick s.clock), clock := tick s.clock }

/-- Write a variable that is known to be constant.  Any other one stays as it is. -/
def setFact (s : State) (name : String) : Flat → State
  | .constant c => s.setVariable name (.constant c)
  | _ => s

/-- The state with each constant of `env` written, in the order of the names.  Names that are not
known to be constant stay without a value. -/
def ofEnvironment (env : Environment Flat) : State :=
  env.toList.foldl (fun s kv => s.setFact kv.1 kv.2) empty

/-- The value of a variable. -/
def value (s : State) (name : String) : Except Error Value :=
  match s.bindings[name]? with
  | some (v, _) => .ok v
  | none => .error (.unbound name)

/-- The value of a variable that must hold a constant. -/
def constant (s : State) (name : String) : Except Error Constant :=
  match s.value name with
  | .error e => .error e
  | .ok (.constant c) => .ok c
  | .ok (.reference _) => .error (.holdsReference name)

/-- The location that a variable refers to, which must hold a reference. -/
def reference (s : State) (name : String) : Except Error String :=
  match s.value name with
  | .error e => .error e
  | .ok (.reference location) => .ok location
  | .ok (.constant _) => .error (.notAReference name)

/-- Of two values the one written later; of two written at once the second. -/
def later (a b : Value × Nat) : Value × Nat := if b.2 < a.2 then a else b

/-- The value written last among `names`; names without a value do not count. -/
def newest (s : State) (names : List String) : Except Error Value :=
  match names.filterMap fun name => s.bindings[name]? with
  | [] => .error (.unbound (", ".intercalate names))
  | v :: vs => .ok (vs.foldl later v).1

/-- Make a storage location for a site.  The number of locations so far is part of its name. -/
def allocate (s : State) (site : Nat) : String × State :=
  let location := cellName site s.allocations
  (location, { s with
    memory := s.memory.insert location none, allocations := tick s.allocations })

/-- The content of a location. -/
def load (s : State) (location : String) : Except Error Value :=
  match s.memory[location]? with
  | some (some v) => .ok v
  | some none => .error (.uninitialized location)
  | none => .error (.unbound location)

/-- Change the content of a location. -/
def store (s : State) (location : String) (v : Value) : Except Error State :=
  if s.memory.contains location then
    .ok { s with memory := s.memory.insert location (some v) }
  else .error (.unbound location)

/-- Queue an input. -/
def pushInput (s : State) (c : Constant) : State := { s with input := s.input ++ [c] }

/-- Take the next input. -/
def readInput (s : State) : Except Error (Constant × State) :=
  match s.input with
  | c :: rest => .ok (c, { s with input := rest })
  | [] => .error .inputExhausted

/-- Carry out one instruction.  A branch changes nothing: where control goes is not part of the
state. -/
def execute (s : State) (i : Instruction) : Except Error State :=
  match i.operation with
  | .binary op dst lhs rhs => do
    let l ← s.constant lhs
    let r ← s.constant rhs
    let c ← op.apply l r
    return s.setVariable dst (.constant c)
  | .branch _ => return s
  | .move dst src => do
    let v ← s.value src
    return s.setVariable dst v
  | .alloca dst =>
    let (location, s) := s.allocate i.id
    return s.setVariable dst (.reference location)
  | .load dst src => do
    let location ← s.reference src
    let v ← s.load location
    return s.setVariable dst v
  | .store dst src => do
    let location ← s.reference dst
    let v ← s.value src
    s.store location v
  | .phi dst args => do
    let v ← s.newest args
    return s.setVariable dst v
  | .read dst => do
    let (c, s) ← s.readInput
    return s.setVariable dst (.constant c)

end State

end Dataflow.Machine

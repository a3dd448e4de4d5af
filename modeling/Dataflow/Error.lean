/-!
# Errors

`Error` lists what can go wrong while programs are built, run or analysed, one constructor per
cause and with the data that names the culprit.  `Error.message` is the wording and `Error.kind`
the coarse classification under which an error is reported.
-/

namespace Dataflow

/-- Why an operation failed. -/
inductive Error where
  /-- A sum of two words left the 64-bit range. -/
  | sumOverflow (lhs rhs : Int64)
  /-- A product of two words left the 64-bit range. -/
  | productOverflow (lhs rhs : Int64)
  /-- The branch `id` has no edge for the outcome `taken` of its condition. -/
  | missingEdge (id : Nat) (taken : Bool)
  /-- Instruction `id` has no branch edges at all. -/
  | notABranch (id : Nat)
  /-- No instruction stands at index `id`. -/
  | instructionNotFound (id : Nat)
  /-- The name `name` is bound to nothing. -/
  | unbound (name : String)
  /-- The budget of `evaluations` equation evaluations ran out before a fixed point. -/
  | nonTermination (evaluations : Nat)
  /-- The budget of `steps` machine steps ran out before the program halted. -/
  | stepLimit (steps : Nat)
  /-- The instruction with text `instruction` has no equation in the analysis `analysis`. -/
  | noEquation (analysis instruction : String)
  /-- A constant was wanted and the variable `name` holds a reference. -/
  | holdsReference (name : String)
  /-- A reference was wanted and the variable `name` holds a constant. -/
  | notAReference (name : String)
  /-- The storage location `location` was read before anything was stored in it. -/
  | uninitialized (location : String)
  /-- Input was wanted and none is queued. -/
  | inputExhausted
  /-- A failure known only by its description. -/
  | custom (text : String)
  /-- A text that is not JSON, or not the JSON form of the wanted type. -/
  | json
  deriving DecidableEq, Repr

namespace Error

/-- The classes into which reports sort errors. -/
inductive Kind where
  | arithmetic
  | missingEdge
  | notABranch
  | instructionNotFound
  | lookup
  | nonTermination
  | stepLimit
  | unknownEquationKind
  | custom
  | json
  deriving DecidableEq, Repr

/-- The word a report uses for a class of errors. -/
def Kind.label : Kind → String
  | arithmetic => "Arithmetic"
  | missingEdge => "MissingEdge"
  | notABranch => "NotABranch"
  | instructionNotFound => "InstructionNotFound"
  | lookup => "Lookup"
  | nonTermination => "NonTermination"
  | stepLimit => "StepLimit"
  | unknownEquationKind => "UnknownEquationKind"
  | custom => "Custom"
  | json => "Json"

/-- The class of an error. -/
def kind : Error → Kind
  | sumOverflow _ _ | productOverflow _ _ => .arithmetic
  | missingEdge _ _ => .missingEdge
  | notABranch _ => .notABranch
  | instructionNotFound _ => .instructionNotFound
  | unbound _ => .lookup
  | nonTermination _ => .nonTermination
  | stepLimit _ => .stepLimit
  | noEquation _ _ => .unknownEquationKind
  | holdsReference _ | notAReference _ | uninitialized _ | inputExhausted | custom _ => .custom
  | json => .json

/-- The wording of an error; a text that is not JSON has none. -/
def message : Error → Option String
  | sumOverflow l r => s!"Arithmetic error: {l.toInt} + {r.toInt} overflows"
  | productOverflow l r => s!"Arithmetic error: {l.toInt} * {r.toInt} overflows"
  | missingEdge id taken => s!"Branch {id} has no {taken} edge"
  | notABranch id => s!"Instruction {id} is not a branch"
  | instructionNotFound id => s!"Instruction not found: {id}"
  | unbound name => s!"`{name}` is not in the environment"
  | nonTermination n => s!"Fixed point not reached after {n} equation evaluations"
  | stepLimit n => s!"Execution stopped after {n} steps"
  | noEquation analysis instruction => s!"No {analysis} equation for instruction `{instruction}`"
  | holdsReference name => s!"Error: `{name}` holds a reference"
  | notAReference name => s!"Error: `{name}` is not a reference"
  | uninitialized location => s!"Error: `{location}` is uninitialized"
  | inputExhausted => "Error: No input left to read"
  | custom text => s!"Error: {text}"
  | json => none

end Error

end Dataflow

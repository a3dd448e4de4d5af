import Dataflow.Domain
import Dataflow.Operation

/-!
# Facts about constants

A variable has no value yet, always the same constant, or possibly different values.  The order is
flat: two different constants have only the last fact above them.
-/

namespace Dataflow

/-- What is known about the values of a variable. -/
inductive Flat where
  /-- No value has been seen. -/
  | undef
  /-- Every value seen was this constant. -/
  | constant (c : Constant)
  /-- Not a constant. -/
  | nac
  deriving DecidableEq, Repr

namespace Flat

/-- The constant, if there is exactly one. -/
def constant? : Flat → Option Constant
  | constant c => some c
  | _ => none

/-- Whether the variable is known not to be constant. -/
def isNac (v : Flat) : Bool := v == nac

/-- Whether no value has been seen. -/
def isUndef (v : Flat) : Bool := v == undef

/-- Merge two facts. -/
def meet : Flat → Flat → Flat
  | undef, v => v
  | v, undef => v
  | nac, _ => nac
  | _, nac => nac
  | constant c, constant d => if c = d then constant c else nac

/-- Compare two facts. -/
def compare? : Flat → Flat → Option Ordering
  | undef, undef => some .eq
  | undef, _ => some .lt
  | _, undef => some .gt
  | nac, nac => some .eq
  | nac, _ => some .gt
  | _, nac => some .lt
  | constant c, constant d => if c = d then some .eq else none

instance : Domain Flat where
  initial := undef
  meet := meet
  compare? := compare?

/-- Apply an operator to facts.  An operand that is not constant wins over one without a value, and
a result outside the 64-bit range is not constant. -/
def apply (op : BinaryOp) : Flat → Flat → Flat
  | nac, _ => nac
  | _, nac => nac
  | undef, _ => undef
  | _, undef => undef
  | constant l, constant r =>
    match op.apply l r with
    | .ok c => constant c
    | .error _ => nac

/-- The text of a fact. -/
def text : Flat → String
  | undef => "UNDEF"
  | constant c => c.text
  | nac => "NAC"

instance : ToString Flat := ⟨text⟩

end Flat

end Dataflow

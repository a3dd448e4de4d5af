/-!
# Constants

The values programs compute with are truth values and signed 64-bit words.  A truth value takes
part in arithmetic as `0` or `1` (`Constant.value`).
-/

namespace Dataflow

/-- The word with the value `n`, if `n` lies in the signed 64-bit range. -/
def word? (n : Int) : Option Int64 :=
  if Int64.minValue.toInt ≤ n ∧ n ≤ Int64.maxValue.toInt then some (Int64.ofInt n) else none

/-- A truth value or a word. -/
inductive Constant where
  | bool (b : Bool)
  | int (n : Int64)
  deriving DecidableEq, Repr

namespace Constant

/-- The constant as a word; `true` counts as one. -/
def value : Constant → Int64
  | bool b => if b then 1 else 0
  | int n => n

/-- A condition holds if its value is not zero. -/
def isTrue (c : Constant) : Bool := c.value != 0

/-- The text of a constant. -/
def text : Constant → String
  | bool b => toString b
  | int n => toString n.toInt

instance : ToString Constant := ⟨text⟩

/-- Truth values come before words, `false` before `true`. -/
instance : Ord Constant where
  compare
    | bool a, bool b => compare a b
    | bool _, int _ => .lt
    | int _, bool _ => .gt
    | int m, int n => compare m n

end Constant

end Dataflow

import Dataflow.Domain

/-!
# Sets of dominators

The dominators of a point are known from above: nothing rules out any instruction at first, and
each path rules some out.  So a smaller set is less certain, and facts merge by intersection.
-/

namespace Dataflow

/-- The instructions that dominate a point, as far as is known. -/
inductive DominatorSet where
  /-- Nothing has been ruled out. -/
  | universal
  /-- All but `ids` have been ruled out. -/
  | only (ids : Std.ExtTreeSet Nat)
  deriving DecidableEq

namespace DominatorSet

/-- The instruction `id` alone. -/
def singleton (id : Nat) : DominatorSet := only {id}

/-- Whether `id` has not been ruled out. -/
def contains : DominatorSet → Nat → Bool
  | universal, _ => true
  | only ids, id => ids.contains id

/-- Add an instruction. -/
def insert : DominatorSet → Nat → DominatorSet
  | universal, _ => universal
  | only ids, id => only (ids.insert id)

/-- The instructions that neither fact rules out. -/
def inter : DominatorSet → DominatorSet → DominatorSet
  | universal, t => t
  | s, universal => s
  | only s, only t => only (s ∩ t)

/-- The instructions, if there are finitely many. -/
def ids? : DominatorSet → Option (List Nat)
  | universal => none
  | only ids => some ids.toList

/-- Compare two facts: a larger set comes first. -/
def compare? : DominatorSet → DominatorSet → Option Ordering
  | universal, universal => some .eq
  | universal, only _ => some .lt
  | only _, universal => some .gt
  | only s, only t => Domain.ofBelowAbove (Domain.subset t s) (Domain.subset s t)

instance : Domain DominatorSet where
  initial := universal
  meet := inter
  compare? := compare?

/-- The text of a fact. -/
def text : DominatorSet → String
  | universal => "Universal"
  | only ids => Domain.setText toString ids

instance : ToString DominatorSet := ⟨text⟩

end DominatorSet

end Dataflow

import Std.Data.ExtTreeSet

/-!
# Domains of facts

An analysis computes facts.  A `Domain` is a type of facts with a least one, a partial order of
increasing uncertainty and an operation that merges two facts into the least fact above both.  The
class has the operations only.

Sets of facts that may hold merge by union, and a larger set is less certain.  What such sets have
in common is here, with one of them, the sets of names; the other domains are defined where they are
used.
-/

namespace Dataflow

/-- A type of facts. -/
class Domain (V : Type) where
  /-- The fact to start from. -/
  initial : V
  /-- What is known where one of two facts holds. -/
  meet : V → V → V
  /-- How two facts compare, if they do. -/
  compare? : V → V → Option Ordering

namespace Domain

variable {V : Type} [Domain V]

/-- The order of facts: `a` comes before `b` or is equal to it. -/
def Le (a b : V) : Prop := compare? a b = some .lt ∨ compare? a b = some .eq

instance (a b : V) : Decidable (Le a b) := inferInstanceAs (Decidable (_ ∨ _))

/-- The comparison that follows from being below and from being above. -/
def ofBelowAbove (below above : Bool) : Option Ordering :=
  match below, above with
  | true, true => some .eq
  | true, false => some .lt
  | false, true => some .gt
  | false, false => none

/-! ### Sets -/

section Sets

variable {α : Type} {cmp : α → α → Ordering} [Std.TransCmp cmp]

/-- Whether all elements of `s` are in `t`. -/
def subset (s t : Std.ExtTreeSet α cmp) : Bool := s.toList.all t.contains

/-- Add the elements of `t` to `s`, and tell whether that made the set larger. -/
def extend (s t : Std.ExtTreeSet α cmp) : Bool × Std.ExtTreeSet α cmp :=
  ((s ∪ t).size != s.size, s ∪ t)

/-- Compare two sets by their sizes, which leaves only one inclusion to be tested. -/
def compareBySize? (s t : Std.ExtTreeSet α cmp) : Option Ordering :=
  match compare s.size t.size with
  | .lt => if subset s t then some .lt else none
  | .eq => if subset s t then some .eq else none
  | .gt => if subset t s then some .gt else none

/-- The text of a set: its elements in order, between braces. -/
def setText (element : α → String) (s : Std.ExtTreeSet α cmp) : String :=
  "\x7b" ++ ", ".intercalate (s.toList.map element) ++ "\x7d"

end Sets

end Domain

/-- A set of names: variables, or storage locations. -/
abbrev LocationSet := Std.ExtTreeSet String

instance : Domain LocationSet where
  initial := ∅
  meet s t := s ∪ t
  compare? := Domain.compareBySize?

instance : ToString LocationSet := ⟨Domain.setText id⟩

end Dataflow

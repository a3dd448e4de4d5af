import Dataflow.Proofs.Flowgraph.Consistency
import Mathlib.Logic.Relation

/-!
# Paths through flow graphs

Control moves along edges, so what can happen in a program is a matter of its paths.  A path is the
list of the instructions on the way (`Program.IsPath`).  A path is clear of a variable if none of
its instructions writes the variable, except perhaps the last (`Program.ClearPath`); such paths are
the chains of steps that leave the variable alone (`clearPath_iff`), and so they can be extended at
both ends.
-/

namespace Dataflow.Program

/-- An edge leads from `m` to `n`. -/
def Edge (p : Program) (m n : Nat) : Prop := n ∈ p.targetsOf m

/-- The instruction `n` writes `x`. -/
def Defines (p : Program) (n : Nat) (x : String) : Prop :=
  ∃ i, p.instructions[n]? = some i ∧ i.operation.definition = some x

/-- The instruction `n` reads `x`. -/
def Uses (p : Program) (n : Nat) (x : String) : Prop :=
  ∃ i, p.instructions[n]? = some i ∧ x ∈ i.operation.uses

/-- A path along edges, as the list of all instructions on it: both ends are in the list, and they
may be the same instruction. -/
inductive IsPath (p : Program) : Nat → List Nat → Nat → Prop
  | single (n : Nat) : IsPath p n [n] n
  | cons {a b c : Nat} {path : List Nat} : p.Edge a b → IsPath p b path c → IsPath p a (a :: path) c

variable {p : Program}

/-! ### Edges and instructions -/

theorem Edge.lt_size {m n : Nat} (h : p.Edge m n) : m < p.size := lt_size_of_mem_targetsOf h

theorem edge_iff {m n : Nat} {i : Instruction} (hi : p.instructions[m]? = some i) :
    p.Edge m n ↔ n ∈ i.targets := by
  rw [Edge, targetsOf_eq hi]

theorem defines_iff {n : Nat} {i : Instruction} {x : String} (hi : p.instructions[n]? = some i) :
    p.Defines n x ↔ i.operation.definition = some x := by
  simp [Defines, hi]

theorem uses_iff {n : Nat} {i : Instruction} {x : String} (hi : p.instructions[n]? = some i) :
    p.Uses n x ↔ x ∈ i.operation.uses := by
  simp [Uses, hi]

namespace Consistent

/-- The targets of edges know the edges as well. -/
theorem edge_iff_mem_predecessors (hp : p.Consistent) {m n : Nat} {i : Instruction}
    (hi : p.instructions[n]? = some i) : p.Edge m n ↔ m ∈ i.predecessors := by
  rw [Edge, ← hp.mem_predecessorsOf_iff, predecessorsOf_eq hi]

/-- Edges lead to instructions. -/
theorem target_lt_size (hp : p.Consistent) {m n : Nat} (h : p.Edge m n) : n < p.size :=
  lt_size_of_mem_predecessorsOf (hp.mem_predecessorsOf_iff.2 h)

/-- The ids of the instructions are their indices. -/
theorem ids_eq_range (hp : p.Consistent) :
    p.instructions.toList.map (·.id) = List.range p.size := by
  refine List.ext_getElem? fun n => ?_
  rw [List.getElem?_map, Array.getElem?_toList]
  by_cases hn : n < p.size
  · obtain ⟨i, hi⟩ := exists_instruction hn
    rw [hi, List.getElem?_range hn, Option.map_some, hp.id hi]
  · have hnone : p.instructions[n]? = none := Array.getElem?_eq_none (Nat.le_of_not_lt hn)
    simp [hnone, Nat.le_of_not_lt hn]

end Consistent

/-! ### Paths -/

namespace IsPath

variable {a b c : Nat} {path : List Nat}

theorem ne_nil (h : p.IsPath a path b) : path ≠ [] := by
  cases h <;> exact List.cons_ne_nil _ _

theorem head_mem (h : p.IsPath a path b) : a ∈ path := by
  cases h <;> exact List.mem_cons_self

/-- What all steps of a path keep holds at its end if it holds at its start. -/
theorem invariant {P : Nat → Prop} (h : p.IsPath a path b) (ha : P a)
    (hstep : ∀ {m n}, p.Edge m n → n ∈ path → P m → P n) : P b := by
  induction h with
  | single => exact ha
  | cons hedge hrest ih =>
    refine ih (hstep hedge (List.mem_cons_of_mem _ hrest.head_mem) ha) fun hedge' hn => ?_
    exact hstep hedge' (List.mem_cons_of_mem _ hn)

/-- A path can be extended at its end. -/
theorem concat (h : p.IsPath a path b) (hedge : p.Edge b c) : p.IsPath a (path ++ [c]) c := by
  induction h with
  | single b => exact .cons hedge (.single c)
  | cons hfirst _ ih => exact .cons hfirst (ih hedge)

end IsPath

/-! ### Paths that leave a variable alone -/

/-- Some path from `a` to `b` has no instruction that writes `x`, except perhaps the last. -/
def ClearPath (p : Program) (x : String) (a b : Nat) : Prop :=
  ∃ path, p.IsPath a path b ∧ ∀ n ∈ path.dropLast, ¬ p.Defines n x

/-- An edge from an instruction that does not write `x`. -/
def ClearEdge (p : Program) (x : String) (a b : Nat) : Prop := ¬ p.Defines a x ∧ p.Edge a b

theorem clearPath_iff {x : String} {a b : Nat} :
    p.ClearPath x a b ↔ Relation.ReflTransGen (p.ClearEdge x) a b := by
  constructor
  · rintro ⟨path, hpath, hclear⟩
    induction hpath with
    | single => exact .refl
    | cons hedge hrest ih =>
      rw [List.dropLast_cons_of_ne_nil hrest.ne_nil, List.forall_mem_cons] at hclear
      exact .head ⟨hclear.1, hedge⟩ (ih hclear.2)
  · intro h
    induction h using Relation.ReflTransGen.head_induction_on with
    | refl => exact ⟨[b], .single b, by simp⟩
    | head hstep _ ih =>
      obtain ⟨path, hpath, hclear⟩ := ih
      refine ⟨_, .cons hstep.2 hpath, ?_⟩
      rw [List.dropLast_cons_of_ne_nil hpath.ne_nil, List.forall_mem_cons]
      exact ⟨hstep.1, hclear⟩

end Dataflow.Program

import Dataflow.Proofs.Contract
import Dataflow.Proofs.Flowgraph.Path
import Dataflow.Proofs.Point
import Dataflow.Proofs.Solver.FixedPoint

/-!
# Reaching definitions are about paths

A definition reaches an instruction if control can go from where it is made to the instruction, and
the variable is not written again in between (`Program.Reaches`).  The sets of the analysis are
exactly that (`Reaching.mem_iff_path`).

A definition first has to leave the instruction that makes it, and then every instruction on its
way, so the argument takes both points of an instruction together: `Program.Leaves` is what reaches
the point after an instruction.  Solutions follow the paths forwards (`Solved.reaches`), and the
evaluations that lead to a solution extend paths at their ends (`reaches_of_solve`).
-/

namespace Dataflow

open Solver Equation

namespace Program

/-- Some path with at least one edge leads from where the definition is made to `n`, and no
instruction between its ends writes the variable of the definition. -/
def Reaches (p : Program) (d : Definition) (n : Nat) : Prop :=
  p.Defines d.site d.name ∧ ∃ first, p.Edge d.site first ∧ p.ClearPath d.name first n

/-- The definition is made by `n`, or it reaches `n` and is not overwritten there. -/
def Leaves (p : Program) (d : Definition) (n : Nat) : Prop :=
  n = d.site ∧ p.Defines n d.name ∨ ¬ p.Defines n d.name ∧ p.Reaches d n

/-- What leaves an instruction reaches its successors. -/
theorem Leaves.reaches {p : Program} {d : Definition} {m n : Nat} (h : p.Leaves d m)
    (hedge : p.Edge m n) : p.Reaches d n := by
  rcases h with ⟨rfl, hdef⟩ | ⟨hclear, hdef, first, hfirst, hpath⟩
  · exact ⟨hdef, n, hedge, clearPath_iff.2 .refl⟩
  · exact ⟨hdef, first, hfirst, clearPath_iff.2 ((clearPath_iff.1 hpath).tail ⟨hclear, hedge⟩)⟩

end Program

namespace Reaching

/-- The definition is in the set of the point with this name. -/
def Holds (env : Environment DefinitionSet) (name : String) (d : Definition) : Prop :=
  ∃ s, env[name]? = some s ∧ d ∈ s

theorem holds_iff_mem {env : Environment DefinitionSet} {name : String} {s : DefinitionSet}
    {d : Definition} (h : env[name]? = some s) : Holds env name d ↔ d ∈ s := by
  simp [Holds, h]

/-- The sets of all points exist and satisfy the equations of reaching definitions. -/
structure Solved (env : Environment DefinitionSet) (p : Program) : Prop where
  mem_in : ∀ {n}, n < p.size → inName n ∈ env
  mem_out : ∀ {n}, n < p.size → outName n ∈ env
  before : ∀ {n d}, n < p.size →
    (Holds env (inName n) d ↔ ∃ m, p.Edge m n ∧ Holds env (outName m) d)
  after : ∀ {n d}, n < p.size → (Holds env (outName n) d ↔
    n = d.site ∧ p.Defines n d.name ∨ ¬ p.Defines n d.name ∧ Holds env (inName n) d)

/-! ### Equations -/

variable {p : Program} {env : Environment DefinitionSet}

/-- What the equation of the point after an instruction gives. -/
theorem eval_ofOut {i : Instruction} {s : DefinitionSet}
    (h : Equation.eval (ReachingEquation.ofOut i) env = .ok s) :
    ∃ before, env[inName i.id]? = some before ∧ ∀ d, d ∈ s ↔
      i.id = d.site ∧ i.operation.definition = some d.name ∨
        i.operation.definition ≠ some d.name ∧ d ∈ before := by
  change ReachingEquation.eval (ReachingEquation.ofOut i) env = .ok s at h
  unfold ReachingEquation.ofOut at h
  split at h
  · rename_i v hv
    obtain ⟨before, hbefore, rfl⟩ := map_eq_ok_iff.1 h
    refine ⟨before, Environment.lookup_eq_ok_iff.1 hbefore, fun d => ?_⟩
    rw [List.foldl_cons, List.foldl_nil, mem_redefine, hv]
    obtain ⟨x, site⟩ := d
    simp only [Definition.mk.injEq, Option.some.injEq, ne_eq]
    tauto
  · rename_i hv
    refine ⟨s, Environment.lookup_eq_ok_iff.1 h, fun d => ?_⟩
    simp [hv]

/-- What the equation of the point before an instruction gives. -/
theorem eval_ofIn {i : Instruction} {s : DefinitionSet}
    (h : Equation.eval (ReachingEquation.ofIn i) env = .ok s) (d : Definition) :
    d ∈ s ↔ ∃ m ∈ i.predecessors, Holds env (outName m) d := by
  rw [Environment.mem_gather h]
  simp [Holds]

theorem name_ofOut (i : Instruction) : Equation.name (ReachingEquation.ofOut i) = outName i.id := by
  show ReachingEquation.name (ReachingEquation.ofOut i) = outName i.id
  unfold ReachingEquation.ofOut
  split <;> rfl

/-- Each point has one equation. -/
theorem atPoints (p : Program) : AtPoints p (equations p) .ofIn .ofOut where
  perm := by
    rw [equations, Array.toList_append, Array.toList_map, Array.toList_map]
    exact List.perm_append_comm
  name_ofIn _ := rfl
  name_ofOut := name_ofOut

variable {strategy : Strategy} {options : Options} {solution : Solution DefinitionSet}

/-- **A solution satisfies the equations of reaching definitions.** -/
theorem solved_of_solve (hp : p.Consistent) (h : solve p strategy options = .ok solution) :
    Solved solution.environment p := by
  have hlocal : ∀ e ∈ equations p, Local e := fun e _ => e.isLocal
  refine ⟨fun hn => ?_, fun hn => ?_, fun {n d} hn => ?_, fun {n d} hn => ?_⟩
  · obtain ⟨-, s, -, hs, -⟩ := (atPoints p).exists_in hp hlocal h hn
    exact Environment.mem_iff_exists.2 ⟨s, hs⟩
  · obtain ⟨-, s, -, hs, -⟩ := (atPoints p).exists_out hp hlocal h hn
    exact Environment.mem_iff_exists.2 ⟨s, hs⟩
  · obtain ⟨i, s, hi, hs, heval⟩ := (atPoints p).exists_in hp hlocal h hn
    simp only [holds_iff_mem hs, eval_ofIn heval, hp.edge_iff_mem_predecessors hi]
  · obtain ⟨i, s, hi, hs, heval⟩ := (atPoints p).exists_out hp hlocal h hn
    obtain ⟨before, hbefore, hmem⟩ := eval_ofOut heval
    rw [hp.id hi] at hbefore hmem
    rw [holds_iff_mem hs, hmem, holds_iff_mem hbefore, Program.defines_iff hi]

/-! ### Paths -/

/-- The equations let a definition follow all its paths. -/
theorem Solved.reaches (hs : Solved env p) (hp : p.Consistent) {d : Definition} {n : Nat}
    (h : p.Reaches d n) : Holds env (inName n) d := by
  obtain ⟨hdef, first, hfirst, hpath⟩ := h
  have hstart : Holds env (outName d.site) d := (hs.after hfirst.lt_size).2 (.inl ⟨rfl, hdef⟩)
  induction Program.clearPath_iff.1 hpath with
  | refl => exact (hs.before (hp.target_lt_size hfirst)).2 ⟨_, hfirst, hstart⟩
  | tail hrest hstep ih =>
    have hreach := ih (Program.clearPath_iff.2 hrest)
    have hleave := (hs.after hstep.2.lt_size).2 (.inr ⟨hstep.1, hreach⟩)
    exact (hs.before (hp.target_lt_size hstep.2)).2 ⟨_, hstep.2, hleave⟩

/-- There is a path for every definition that is found. -/
theorem reaches_of_solve (hp : p.Consistent) (h : solve p strategy options = .ok solution) {n : Nat}
    {d : Definition} (hd : Holds solution.environment (inName n) d) : p.Reaches d n := by
  obtain ⟨s, hs, hd⟩ := hd
  have hfits : FitsAt (fun n s => ∀ d ∈ s, p.Reaches d n) (fun n s => ∀ d ∈ s, p.Leaves d n)
      (inName n) s := by
    refine (atPoints p).fits_of_solve hp (fun n => ?_) ?_ ?_ h hs
    · exact ⟨fun _ hd => absurd hd Domain.notMem_initial,
        fun _ hd => absurd hd Domain.notMem_initial⟩
    · intro n i env s hi hafter heval d hd
      obtain ⟨m, hm, t, ht, hd⟩ := (eval_ofIn heval d).1 hd
      exact (hafter m t ht d hd).reaches ((hp.edge_iff_mem_predecessors hi).2 hm)
    · intro n i env s hi hbefore heval d hd
      obtain ⟨before, hin, hs⟩ := eval_ofOut heval
      rw [hp.id hi] at hin hs
      unfold Program.Leaves
      rw [Program.defines_iff hi]
      rcases (hs d).1 hd with hmade | ⟨hkept, hd⟩
      · exact .inl hmade
      · exact .inr ⟨hkept, hbefore n before hin d hd⟩
  exact fitsAt_inName.1 hfits d hd

/-- **Reaching definitions equal their definition by paths.**  A definition of `x` at `d` reaches an
instruction if some path with at least one edge leads from `d` there, and no instruction between
the ends of the path writes `x`.  It goes on to the point after the instruction, unless that writes
`x`, and then only the definition by the instruction itself is there. -/
theorem mem_iff_path (hp : p.Built) (h : solve p strategy options = .ok solution) {n : Nat}
    (hn : n < p.size) : ∃ before after : DefinitionSet,
      solution.environment[inName n]? = some before ∧
      solution.environment[outName n]? = some after ∧ ∀ x d,
        (⟨x, d⟩ ∈ before ↔
          p.Defines d x ∧ ∃ first, p.Edge d first ∧ p.ClearPath x first n) ∧
        (⟨x, d⟩ ∈ after ↔ n = d ∧ p.Defines n x ∨ ¬ p.Defines n x ∧ ⟨x, d⟩ ∈ before) := by
  have hs := solved_of_solve hp.consistent h
  obtain ⟨before, hbefore⟩ := Environment.mem_iff_exists.1 (hs.mem_in hn)
  obtain ⟨after, hafter⟩ := Environment.mem_iff_exists.1 (hs.mem_out hn)
  refine ⟨before, after, hbefore, hafter, fun x d => ⟨?_, ?_⟩⟩
  · rw [← holds_iff_mem hbefore]
    exact ⟨reaches_of_solve hp.consistent h, hs.reaches hp.consistent (d := ⟨x, d⟩)⟩
  · rw [← holds_iff_mem hafter, ← holds_iff_mem hbefore]
    exact hs.after hn

/-- A loop that copies a variable and reads it anew, with a first value from outside. -/
def refillLoop : Program := Program.empty.edits
  [.push (.read "x"), .push (.move "y" "x"), .push (.read "x"), .push (.branch "y"),
    .sequence [0, 1, 2, 3], .linkBranch 3 true 1]

/-- At the head of the loop, where the first value and the later ones arrive. -/
theorem mem_iff_path_refillLoop : refillLoop.Built ∧ 1 < refillLoop.size ∧
    ∃ solution, solve refillLoop .chaotic {} = .ok solution ∧ ∃ before after : DefinitionSet,
      solution.environment[inName 1]? = some before ∧
      solution.environment[outName 1]? = some after ∧ ∀ x d,
        (⟨x, d⟩ ∈ before ↔ refillLoop.Defines d x ∧
          ∃ first, refillLoop.Edge d first ∧ refillLoop.ClearPath x first 1) ∧
        (⟨x, d⟩ ∈ after ↔
          1 = d ∧ refillLoop.Defines 1 x ∨ ¬ refillLoop.Defines 1 x ∧ ⟨x, d⟩ ∈ before) := by
  have hbuilt : refillLoop.Built := ⟨_, rfl⟩
  have hsize : 1 < refillLoop.size := by decide
  obtain ⟨solution, h⟩ : ∃ solution, solve refillLoop .chaotic {} = .ok solution :=
    exists_eq_ok (by decide +kernel)
  exact ⟨hbuilt, hsize, solution, h, mem_iff_path hbuilt h hsize⟩

end Reaching

end Dataflow

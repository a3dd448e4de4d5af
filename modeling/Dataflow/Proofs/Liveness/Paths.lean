import Dataflow.Proofs.Contract
import Dataflow.Proofs.Flowgraph.Path
import Dataflow.Proofs.Point
import Dataflow.Proofs.Solver.FixedPoint

/-!
# Liveness is about paths

A variable is live before an instruction if control can go from there to an instruction that reads
the variable, without passing one that writes it (`Program.LiveAt`).  The sets of the analysis are
exactly that (`Liveness.mem_liveIn_iff_path`).

Both directions go along single steps.  A solution satisfies its equations, which let liveness pass
backwards over an edge, so it misses no path (`Solved.liveBefore_of_path`).  And an evaluation adds
a variable only where it knows a path for it or can extend one, so there is a path for all that it
finds (`liveAt_of_solve`); that no larger solution of the equations is found is due to the empty
sets at the start.
-/

namespace Dataflow

open Solver Equation

/-- Some path from `n` leads to an instruction that reads `x`, and no instruction before that one
writes `x`. -/
def Program.LiveAt (p : Program) (n : Nat) (x : String) : Prop :=
  ∃ q, p.ClearPath x n q ∧ p.Uses q x

namespace Program.LiveAt

variable {p : Program} {n t : Nat} {x : String}

theorem of_uses (h : p.Uses n x) : p.LiveAt n x := ⟨n, clearPath_iff.2 .refl, h⟩

theorem of_edge (hclear : ¬ p.Defines n x) (hedge : p.Edge n t) (h : p.LiveAt t x) :
    p.LiveAt n x := by
  obtain ⟨q, hpath, huse⟩ := h
  exact ⟨q, clearPath_iff.2 (.head ⟨hclear, hedge⟩ (clearPath_iff.1 hpath)), huse⟩

end Program.LiveAt

namespace Liveness

/-- The variable `x` is among those that are live before the instruction `n`. -/
def LiveBefore (l : Liveness) (n : Nat) (x : String) : Prop :=
  ∃ live, l.liveIn n = .ok live ∧ x ∈ live

/-- The variable `x` is among those that are live after the instruction `n`. -/
def LiveAfter (l : Liveness) (n : Nat) (x : String) : Prop :=
  ∃ live, l.liveOut n = .ok live ∧ x ∈ live

theorem liveBefore_iff_mem {l : Liveness} {n : Nat} {live : LocationSet} {x : String}
    (h : l.liveIn n = .ok live) : l.LiveBefore n x ↔ x ∈ live := by
  simp [LiveBefore, h]

theorem liveAfter_iff_mem {l : Liveness} {n : Nat} {live : LocationSet} {x : String}
    (h : l.liveOut n = .ok live) : l.LiveAfter n x ↔ x ∈ live := by
  simp [LiveAfter, h]

/-- The sets of all instructions exist and satisfy the equations of liveness. -/
structure Solved (l : Liveness) (p : Program) : Prop where
  liveIn : ∀ {n}, n < p.size → ∃ live, l.liveIn n = .ok live
  liveOut : ∀ {n}, n < p.size → ∃ live, l.liveOut n = .ok live
  before : ∀ {n x}, n < p.size →
    (l.LiveBefore n x ↔ p.Uses n x ∨ l.LiveAfter n x ∧ ¬ p.Defines n x)
  after : ∀ {n x}, n < p.size → (l.LiveAfter n x ↔ ∃ t, p.Edge n t ∧ l.LiveBefore t x)

/-! ### Equations -/

variable {p : Program}

/-- Each point has one equation. -/
theorem atPoints (p : Program) : AtPoints p (equations p) .ofIn .ofOut where
  perm := by
    rw [equations, Array.toList_append, Array.toList_map, Array.toList_map, Array.toList_reverse]
    exact ((List.reverse_perm _).map _).append ((List.reverse_perm _).map _)
  name_ofIn _ := rfl
  name_ofOut _ := rfl

theorem solve_eq_ok_iff {strategy : Strategy} {options : Options} {l : Liveness} :
    solve p strategy options = .ok l ↔
      Solver.solve strategy (equations p) ∅ options = .ok l.solution := by
  unfold Liveness.solve Liveness.trace Solver.solve
  rw [map_eq_ok_iff]
  constructor
  · rintro ⟨solution, h, rfl⟩
    exact h
  · intro h
    exact ⟨l.solution, h, rfl⟩

/-- What the equation of the point before an instruction gives. -/
theorem eval_ofIn {i : Instruction} {env : Environment LocationSet} {s : LocationSet}
    (h : Equation.eval (LivenessEquation.ofIn i) env = .ok s) :
    ∃ after, env[outName i.id]? = some after ∧ ∀ x, x ∈ s ↔
      x ∈ i.operation.uses ∨ x ∈ after ∧ i.operation.definition ≠ some x := by
  obtain ⟨after, hafter, rfl⟩ := map_eq_ok_iff.1 h
  refine ⟨after, Environment.lookup_eq_ok_iff.1 hafter, fun x => ?_⟩
  rw [mem_transfer, Std.ExtTreeSet.mem_toList, Option.mem_toList]

/-- What the equation of the point after an instruction gives. -/
theorem eval_ofOut {i : Instruction} {env : Environment LocationSet} {s : LocationSet}
    (h : Equation.eval (LivenessEquation.ofOut i) env = .ok s) :
    ∀ x, x ∈ s ↔ ∃ t ∈ i.targets, ∃ live, env[inName t]? = some live ∧ x ∈ live := by
  intro x
  rw [Environment.mem_gather h]
  simp

variable {strategy : Strategy} {options : Options} {l : Liveness}

/-- **A solution satisfies the equations of liveness.** -/
theorem solved_of_solve (hp : p.Consistent) (h : solve p strategy options = .ok l) :
    l.Solved p := by
  have hlocal : ∀ e ∈ equations p, Local e := fun e _ => e.isLocal
  have hsolve := solve_eq_ok_iff.1 h
  refine ⟨fun hn => ?_, fun hn => ?_, fun {n x} hn => ?_, fun {n x} hn => ?_⟩
  · obtain ⟨-, live, -, hlive, -⟩ := (atPoints p).exists_in hp hlocal hsolve hn
    exact ⟨live, Environment.lookup_eq_ok_iff.2 hlive⟩
  · obtain ⟨-, live, -, hlive, -⟩ := (atPoints p).exists_out hp hlocal hsolve hn
    exact ⟨live, Environment.lookup_eq_ok_iff.2 hlive⟩
  · obtain ⟨i, live, hi, hlive, heval⟩ := (atPoints p).exists_in hp hlocal hsolve hn
    obtain ⟨after, hafter, hmem⟩ := eval_ofIn heval
    have hliveIn : l.liveIn n = .ok live := Environment.lookup_eq_ok_iff.2 hlive
    have hliveOut : l.liveOut n = .ok after := Environment.lookup_eq_ok_iff.2 (hp.id hi ▸ hafter)
    rw [liveBefore_iff_mem hliveIn, hmem, liveAfter_iff_mem hliveOut, Program.uses_iff hi,
      Program.defines_iff hi]
  · obtain ⟨i, live, hi, hlive, heval⟩ := (atPoints p).exists_out hp hlocal hsolve hn
    have hliveOut : l.liveOut n = .ok live := Environment.lookup_eq_ok_iff.2 hlive
    rw [liveAfter_iff_mem hliveOut, eval_ofOut heval]
    simp only [Program.edge_iff hi, LiveBefore, Liveness.liveIn, Environment.lookup_eq_ok_iff]

/-! ### Paths -/

/-- The equations let liveness pass backwards along every clear path. -/
theorem Solved.liveBefore_of_path (hl : l.Solved p) {n : Nat} {x : String} (h : p.LiveAt n x) :
    l.LiveBefore n x := by
  obtain ⟨q, hpath, i, hi, huse⟩ := h
  induction Program.clearPath_iff.1 hpath using Relation.ReflTransGen.head_induction_on with
  | refl => exact (hl.before (Program.lt_size hi)).2 (.inl ⟨i, hi, huse⟩)
  | head hstep hrest ih =>
    have hn := hstep.2.lt_size
    have hafter : l.LiveAfter _ x :=
      (hl.after hn).2 ⟨_, hstep.2, ih (Program.clearPath_iff.2 hrest)⟩
    exact (hl.before hn).2 (.inr ⟨hafter, hstep.1⟩)

/-- There is a path for every variable that is found. -/
theorem liveAt_of_solve (hp : p.Consistent) (h : solve p strategy options = .ok l) {n : Nat}
    {x : String} (hx : l.LiveBefore n x) : p.LiveAt n x := by
  obtain ⟨live, hlive, hx⟩ := hx
  have hfits : FitsAt (fun n live => ∀ x ∈ live, p.LiveAt n x)
      (fun n live => ∀ x ∈ live, ∃ t, p.Edge n t ∧ p.LiveAt t x) (inName n) live := by
    refine (atPoints p).fits_of_solve hp (fun n => ?_) ?_ ?_ (solve_eq_ok_iff.1 h)
      (Environment.lookup_eq_ok_iff.1 hlive)
    · exact ⟨fun _ hx => absurd hx Domain.notMem_initial,
        fun _ hx => absurd hx Domain.notMem_initial⟩
    · intro n i env s hi hafter heval x hx
      obtain ⟨after, hout, hs⟩ := eval_ofIn heval
      rw [hp.id hi] at hout
      rcases (hs x).1 hx with huse | ⟨hx, hdef⟩
      · exact .of_uses ⟨i, hi, huse⟩
      · obtain ⟨t, hedge, hlive⟩ := hafter n after hout x hx
        exact .of_edge (mt (Program.defines_iff hi).1 hdef) hedge hlive
    · intro n i env s hi hbefore heval x hx
      obtain ⟨t, ht, live, hlive, hx⟩ := (eval_ofOut heval x).1 hx
      exact ⟨t, (Program.edge_iff hi).2 ht, hbefore t live hlive x hx⟩
  exact fitsAt_inName.1 hfits x hx

/-- **Liveness equals its definition by paths.**  The variables that are live before an instruction
are those that some path from there leads to a reading instruction, past none that writes them;
after an instruction, those that are live before one of its successors. -/
theorem mem_liveIn_iff_path (hp : p.Built) (h : solve p strategy options = .ok l) {n : Nat}
    (hn : n < p.size) :
    (∃ live, l.liveIn n = .ok live ∧ ∀ x, x ∈ live ↔ ∃ q, p.ClearPath x n q ∧ p.Uses q x) ∧
    ∃ live, l.liveOut n = .ok live ∧
      ∀ x, x ∈ live ↔ ∃ t, p.Edge n t ∧ ∃ live', l.liveIn t = .ok live' ∧ x ∈ live' := by
  have hl := solved_of_solve hp.consistent h
  constructor
  · obtain ⟨live, hlive⟩ := hl.liveIn hn
    refine ⟨live, hlive, fun x => ?_⟩
    rw [← liveBefore_iff_mem hlive]
    exact ⟨liveAt_of_solve hp.consistent h, hl.liveBefore_of_path⟩
  · obtain ⟨live, hlive⟩ := hl.liveOut hn
    refine ⟨live, hlive, fun x => ?_⟩
    rw [← liveAfter_iff_mem hlive]
    exact hl.after hn

/-- A loop whose branch has no edge to leave it, and whose counter is read where it is written. -/
def halfLoop : Program := Program.empty.edits
  [.push (.binary .add "i" "i" "step"), .push (.binary .lth "more" "i" "end"),
    .push (.branch "more"), .sequence [0, 1, 2], .linkBranch 2 true 0]

/-- At the branch of the loop, what is live follows from the paths around the loop. -/
theorem mem_liveIn_iff_path_halfLoop : halfLoop.Built ∧ 2 < halfLoop.size ∧
    ∃ l, solve halfLoop .worklist { order := .lifo } = .ok l ∧
      (∃ live, l.liveIn 2 = .ok live ∧
        ∀ x, x ∈ live ↔ ∃ q, halfLoop.ClearPath x 2 q ∧ halfLoop.Uses q x) ∧
      ∃ live, l.liveOut 2 = .ok live ∧
        ∀ x, x ∈ live ↔ ∃ t, halfLoop.Edge 2 t ∧ ∃ live', l.liveIn t = .ok live' ∧ x ∈ live' := by
  have hbuilt : halfLoop.Built := ⟨_, rfl⟩
  have hsize : 2 < halfLoop.size := by decide
  obtain ⟨l, hl⟩ : ∃ l, solve halfLoop .worklist { order := .lifo } = .ok l :=
    exists_eq_ok (by decide +kernel)
  exact ⟨hbuilt, hsize, l, hl, mem_liveIn_iff_path hbuilt hl hsize⟩

end Liveness

end Dataflow

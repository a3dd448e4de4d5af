import Dataflow.Proofs.Definitions.Paths
import Dataflow.Proofs.Machine.Execution

/-!
# Definitions in execution are reaching definitions

In a run the value of a variable comes from the last instruction that wrote it.  The analysis knows
that instruction at every place where control arrives (`Reaching.lastWrite_mem`).

One step changes at most one last writer: the instruction that executes becomes the last writer of
the variable that it defines, and all other variables keep theirs (`Machine.lastWrite_succ`).  This
is also what an equation does with a set of definitions, and control only moves along edges, so the
sets of a solution follow the run (`Solved.lastWrite`).  That the definition of an instruction is
all it writes, is a fact about the machine (`State.Executes.bindings`).
-/

namespace Dataflow

namespace Machine

/-! ### Writes of a run -/

/-- The step after the first `j` steps executes instruction `id`. -/
def ExecutesAt (m : Machine) (j id : Nat) : Prop :=
  ∃ m', m.after j = .ok m' ∧ m'.location = some id

/-- Among the first `k` steps, the last one that writes `x` executes instruction `d`. -/
def LastWrite (m : Machine) (k : Nat) (x : String) (d : Nat) : Prop :=
  ∃ j < k, m.ExecutesAt j d ∧ m.program.Defines d x ∧
    ∀ j', j < j' → j' < k → ∀ d', m.ExecutesAt j' d' → ¬ m.program.Defines d' x

variable {m m' : Machine} {j k id id' : Nat} {x : String} {d : Nat}

theorem executesAt_iff : m.ExecutesAt j id ↔ (m.after j).map (·.location) = .ok (some id) :=
  map_eq_ok_iff.symm

theorem ExecutesAt.unique (h : m.ExecutesAt j id) (h' : m.ExecutesAt j id') : id = id' := by
  obtain ⟨m₁, hm₁, hid⟩ := h
  obtain ⟨m₂, hm₂, hid'⟩ := h'
  cases hm₁.symm.trans hm₂
  exact Option.some.inj (hid.symm.trans hid')

theorem not_lastWrite_zero : ¬ m.LastWrite 0 x d := by
  rintro ⟨j, hj, -⟩
  omega

/-- One more step makes its instruction the last writer of the variable that it defines. -/
theorem lastWrite_succ (h : m.ExecutesAt k id) : m.LastWrite (k + 1) x d ↔
    d = id ∧ m.program.Defines id x ∨ ¬ m.program.Defines id x ∧ m.LastWrite k x d := by
  constructor
  · rintro ⟨j, hj, hexec, hdef, hlater⟩
    rcases Nat.lt_succ_iff_lt_or_eq.1 hj with hj | rfl
    · refine .inr ⟨hlater k hj (Nat.lt_succ_self k) id h, j, hj, hexec, hdef, ?_⟩
      exact fun j' hlt hj' => hlater j' hlt (Nat.lt_succ_of_lt hj')
    · cases hexec.unique h
      exact .inl ⟨rfl, hdef⟩
  · rintro (⟨rfl, hdef⟩ | ⟨hnot, j, hj, hexec, hdef, hlater⟩)
    · exact ⟨k, Nat.lt_succ_self k, h, hdef, fun j' hlt hj' => by omega⟩
    · refine ⟨j, Nat.lt_succ_of_lt hj, hexec, hdef, fun j' hlt hj' d' hexec' => ?_⟩
      rcases Nat.lt_succ_iff_lt_or_eq.1 hj' with hj' | rfl
      · exact hlater j' hlt hj' d' hexec'
      · exact hexec'.unique h ▸ hnot

/-- A run keeps its program. -/
theorem after_program (h : m.after k = .ok m') : m'.program = m.program := by
  refine after_induction (P := fun m' => m'.program = m.program) rfl ?_ h
  intro m₁ m₂ hprog hstep
  rcases step_cases hstep with ⟨-, rfl⟩ | ⟨id, i, s, location, -, -, -, -, rfl⟩
  · exact hprog
  · exact hprog

/-- Where control is after a step, it has come along an edge from the instruction that the step has
executed. -/
theorem after_succ_cases {n : Nat} (h : m.after (k + 1) = .ok m') (hloc : m'.location = some n) :
    ∃ m₁ id i, m.after k = .ok m₁ ∧ m₁.location = some id ∧
      m.program.instructions[id]? = some i ∧
      State.Executes i.id m₁.state i.operation m'.state ∧ m.program.Edge id n := by
  obtain ⟨m₁, hm₁, hstep⟩ := bind_eq_ok_iff.1 h
  rcases step_cases hstep with ⟨hnone, rfl⟩ | ⟨id, i, s, location, hid, hi, hs, hsucc, rfl⟩
  -- a machine that has halted has no location after the step either
  · rw [hnone] at hloc
    cases hloc
  · rw [after_program hm₁] at hi
    cases hloc
    exact ⟨m₁, id, i, hm₁, hid, hi, hs, (Program.edge_iff hi).2 (mem_targets_of_successor hsucc)⟩

/-- Control is always at an instruction. -/
theorem location_lt_size {p : Program} (hp : p.Consistent) {s : State} {n : Nat}
    (h : (start p s).after k = .ok m) (hloc : m.location = some n) : n < p.size := by
  cases k with
  | zero =>
    cases h
    obtain ⟨i, hi, rfl⟩ := Option.map_eq_some_iff.1 hloc
    have hentry : p.instructions[0]? = some i := hi
    rw [hp.id hentry]
    exact Program.lt_size hentry
  | succ k =>
    obtain ⟨m₁, id, i, -, -, -, -, hedge⟩ := after_succ_cases h hloc
    exact hp.target_lt_size hedge

/-- A variable whose entry has changed has been written. -/
theorem exists_lastWrite {n : Nat} (h : m.after k = .ok m') (hloc : m'.location = some n)
    (hne : m'.state.bindings[x]? ≠ m.state.bindings[x]?) : ∃ d, m.LastWrite k x d := by
  induction k generalizing m' n with
  | zero =>
    cases h
    exact absurd rfl hne
  | succ k ih =>
    obtain ⟨m₁, id, i, hm₁, hid, hi, hs, -⟩ := after_succ_cases h hloc
    have hat : m.ExecutesAt k id := ⟨m₁, hm₁, hid⟩
    by_cases hdef : m.program.Defines id x
    · exact ⟨id, (lastWrite_succ hat).2 (.inl ⟨rfl, hdef⟩)⟩
    · have hsame : m'.state.bindings[x]? = m₁.state.bindings[x]? :=
        hs.getElem?_bindings fun hx => hdef ((Program.defines_iff hi).2 hx)
      obtain ⟨d, hd⟩ := ih hm₁ hid (hsame ▸ hne)
      exact ⟨d, (lastWrite_succ hat).2 (.inr ⟨hdef, hd⟩)⟩

end Machine

namespace Reaching

open Machine

variable {p : Program} {env : Environment DefinitionSet}

/-- **The sets of a solution follow a run.** -/
theorem Solved.lastWrite (hs : Solved env p) (hp : p.Consistent) {s : State} {k n : Nat}
    {m : Machine} (hrun : (start p s).after k = .ok m) (hloc : m.location = some n) {x : String}
    {d : Nat} (h : (start p s).LastWrite k x d) : Holds env (inName n) ⟨x, d⟩ := by
  induction k generalizing m n with
  | zero => exact absurd h not_lastWrite_zero
  | succ k ih =>
    obtain ⟨m₁, id, i, hm₁, hid, -, -, hedge⟩ := after_succ_cases hrun hloc
    refine (hs.before (hp.target_lt_size hedge)).2 ⟨id, hedge, (hs.after hedge.lt_size).2 ?_⟩
    rcases (lastWrite_succ ⟨m₁, hm₁, hid⟩).1 h with ⟨rfl, hdef⟩ | ⟨hnot, hlast⟩
    · exact .inl ⟨rfl, hdef⟩
    · exact .inr ⟨hnot, ih hm₁ hid hlast⟩

/-- **The analysis is sound for execution.**  Wherever control is after a run, the analysis knows
the instructions that have written the variables last, and every variable whose entry differs from
the start is one of these. -/
theorem lastWrite_mem (hp : p.Built) {strategy : Solver.Strategy} {options : Solver.Options}
    {solution : Solver.Solution DefinitionSet} (h : solve p strategy options = .ok solution)
    {s : State} {k n : Nat} {m : Machine} (hrun : (start p s).after k = .ok m)
    (hloc : m.location = some n) :
    ∃ before : DefinitionSet, solution.environment[inName n]? = some before ∧
      (∀ x d, (start p s).LastWrite k x d → ⟨x, d⟩ ∈ before) ∧
      ∀ x : String, m.state.bindings[x]? ≠ s.bindings[x]? →
        ∃ d, (start p s).LastWrite k x d ∧ ⟨x, d⟩ ∈ before := by
  have hs := solved_of_solve hp.consistent h
  obtain ⟨before, hbefore⟩ :=
    Environment.mem_iff_exists.1 (hs.mem_in (location_lt_size hp.consistent hrun hloc))
  have hmem : ∀ x d, (start p s).LastWrite k x d → ⟨x, d⟩ ∈ before := fun x d hlast =>
    (holds_iff_mem hbefore).1 (hs.lastWrite hp.consistent hrun hloc hlast)
  refine ⟨before, hbefore, hmem, fun x hne => ?_⟩
  obtain ⟨d, hd⟩ := exists_lastWrite hrun hloc hne
  exact ⟨d, hd, hmem x d hd⟩

/-- Back at the head of the loop, `x` comes from the second of the two instructions that read it,
though there the other one may have written it as well. -/
theorem lastWrite_mem_refillLoop : refillLoop.Built ∧
    ∃ solution m, solve refillLoop .worklist {} = .ok solution ∧
      (start refillLoop (.initial ∅ [.int 5, .int 7])).after 4 = .ok m ∧ m.location = some 1 ∧
      ∃ before : DefinitionSet, solution.environment[inName 1]? = some before ∧
        ⟨"x", 2⟩ ∈ before ∧ ⟨"x", 0⟩ ∈ before := by
  have hbuilt : refillLoop.Built := ⟨_, rfl⟩
  have hsolve : ((solve refillLoop .worklist {}).map fun solution =>
      solution.environment[inName 1]?.map fun s => decide (⟨"x", 0⟩ ∈ s)) = .ok (some true) := by
    decide +kernel
  obtain ⟨solution, hsolve, hfirst⟩ := map_eq_ok_iff.1 hsolve
  have hrun : ((start refillLoop (.initial ∅ [.int 5, .int 7])).after 4).map (·.location) =
      .ok (some 1) := by decide +kernel
  obtain ⟨m, hrun, hloc⟩ := map_eq_ok_iff.1 hrun
  obtain ⟨before, hbefore, hmem, -⟩ := lastWrite_mem hbuilt hsolve hrun hloc
  rw [hbefore] at hfirst
  refine ⟨hbuilt, solution, m, hsolve, hrun, hloc, before, hbefore, hmem "x" 2 ?_,
    of_decide_eq_true (Option.some.inj hfirst)⟩
  have hread : (start refillLoop (.initial ∅ [.int 5, .int 7])).ExecutesAt 2 2 :=
    executesAt_iff.2 (by decide +kernel)
  have hbranch : (start refillLoop (.initial ∅ [.int 5, .int 7])).ExecutesAt 3 3 :=
    executesAt_iff.2 (by decide +kernel)
  refine (lastWrite_succ hbranch).2 (.inr ⟨?_, (lastWrite_succ hread).2 (.inl ⟨rfl, ?_⟩)⟩)
  · rintro ⟨i, hi, hx⟩
    cases hi
    cases hx
  · exact ⟨_, rfl, rfl⟩

end Reaching

end Dataflow

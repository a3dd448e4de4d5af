import Dataflow.Proofs.Dependable
import Dataflow.Proofs.Solver.Budget
import Dataflow.Proofs.Solver.CutOff
import Mathlib.Order.Fin.Basic
import Mathlib.Order.WellFounded

/-!
# Missing names

No solver checks beforehand that all names that are read will have a fact.  Which names are bound
does not change after the start, though: they are those of the start and those of the equations.  So
a name that is in neither stays missing, and an equation that reads it fails whenever it is
evaluated.  `FirstGap` is the first such equation, with the first such name that it reads.

Sweeps and a worklist that is served in turn begin with all equations in order
(`Schedule.InOrder`): what a worklist lets wait again waits behind the others.  So both report the
first gap, or run out before they come to it, with the same budgets (`run_of_firstGap`).  A worklist
that is served the other way may come to another gap first, but every schedule that forgets no
equation comes to one (`deps_mem_of_run`).  Without a gap no evaluation fails.
-/

namespace Dataflow.Solver

open Equation

/-! ### The first round -/

/-- A schedule that begins with all equations in order.  `At k s` says that the first `k` of them
are behind it. -/
structure Schedule.InOrder {n : Nat} {σ : Type} (S : Schedule n σ) (At : Nat → σ → Prop) :
    Prop where
  next : ∀ {k s} (hk : k < n), At k s → ∃ s', S.next s = some (⟨k, hk⟩, s') ∧
    ∀ changed, At (k + 1) (S.learn ⟨k, hk⟩ changed s')

theorem Sweep.inOrder (n : Nat) : (Sweep.schedule n).InOrder fun k s => s.cursor = k where
  next := by
    rintro k s hk rfl
    exact ⟨{ s with cursor := s.cursor + 1 }, dif_pos hk, fun _ => rfl⟩

namespace Worklist

theorem next_fifo {n : Nat} {w : Worklist n} {i : Fin n} {rest : List (Fin n)}
    (h : w.queue = i :: rest) :
    next .fifo w = some (i, { queue := rest, pending := w.pending.set i false i.isLt }) := by
  unfold next
  rw [h]
  rfl

/-- What is let wait comes behind what waits already. -/
theorem isPrefix_queue_pushAll {n : Nat} {w : Worklist n} {front : List (Fin n)}
    (h : front <+: w.queue) (is : List (Fin n)) : front <+: (w.pushAll is).queue := by
  induction is generalizing w with
  | nil => exact h
  | cons i is ih =>
    have hpush : w.queue <+: (w.push i).queue := by
      unfold push
      split
      · exact List.prefix_rfl
      · exact List.prefix_append _ _
    exact ih (h.trans hpush)

variable {E V : Type} [Equation E V]

/-- A worklist that is served in turn begins with all equations in order: those still to come stay
at the front of the queue. -/
theorem inOrder (es : Array E) (readers : Readers es.size) :
    (schedule .fifo es readers).InOrder fun k w => (List.finRange es.size).drop k <+: w.queue where
  next := by
    rintro k w hk ⟨rest, hqueue⟩
    have hlength : k < (List.finRange es.size).length := by simpa using hk
    rw [List.drop_eq_getElem_cons hlength, List.getElem_finRange, List.cons_append] at hqueue
    refine ⟨_, next_fifo hqueue.symm, fun changed => ?_⟩
    have hahead : (List.finRange es.size).drop (k + 1) <+:
        (List.finRange es.size).drop (k + 1) ++ rest := List.prefix_append _ _
    cases changed with
    | false => exact hahead
    | true => exact isPrefix_queue_pushAll hahead _

end Worklist

/-! ### Gaps -/

section Gaps

variable {E V : Type} [Equation E V] {es : Array E} {env : Environment V}

/-- Equation `i` is the first one that reads a name which neither the start nor an equation binds,
and `x` is the first such name that it reads. -/
structure FirstGap (es : Array E) (env : Environment V) (i : Fin es.size) (x : String) : Prop where
  find : (deps (nth es i)).find? (fun y => y ∉ env ∧ y ∉ names es) = some x
  before : ∀ j < i, ∀ y ∈ deps (nth es j), y ∈ env ∨ y ∈ names es

theorem FirstGap.mem {i : Fin es.size} {x : String} (h : FirstGap es env i x) :
    x ∈ deps (nth es i) ∧ x ∉ env ∧ x ∉ names es :=
  ⟨List.mem_of_find?_eq_some h.find, by simpa using List.find?_some h.find⟩

/-- Where something is missing, there is a first gap. -/
theorem bound_or_exists_firstGap (es : Array E) (env : Environment V) :
    (∀ e ∈ es, ∀ y ∈ deps e, y ∈ env ∨ y ∈ names es) ∨ ∃ i x, FirstGap es env i x := by
  by_cases hgap : ∃ i, ∃ y ∈ deps (nth es i), y ∉ env ∧ y ∉ names es
  · obtain ⟨i, ⟨y, hy, hmissing⟩, hleast⟩ := WellFounded.has_min wellFounded_lt
      { i | ∃ y ∈ deps (nth es i), y ∉ env ∧ y ∉ names es } hgap
    obtain ⟨x, hx⟩ : ∃ x, (deps (nth es i)).find? (fun y => y ∉ env ∧ y ∉ names es) = some x :=
      Option.isSome_iff_exists.1 (List.find?_isSome.2 ⟨y, hy, by simpa using hmissing⟩)
    refine .inr ⟨i, x, hx, fun j hj z hz => ?_⟩
    by_contra hnot
    exact hleast j ⟨z, hz, not_or.1 hnot⟩ hj
  · refine .inl fun e he y hy => ?_
    obtain ⟨i, rfl⟩ := exists_nth he
    by_contra hnot
    exact hgap ⟨i, y, hy, not_or.1 hnot⟩

variable [Domain V]

/-- The equation of a gap fails in every environment that a solver can come to. -/
theorem FirstGap.eval_eq_error {i : Fin es.size} {x : String} (h : FirstGap es env i x)
    (he : Dependable (nth es i)) {env' : Environment V}
    (hbound : ∀ y, y ∈ env' ↔ y ∈ env ∨ y ∈ names es) :
    eval (nth es i) env' = .error (.unbound x) := by
  obtain ⟨hx, hmissing⟩ := h.mem
  obtain ⟨err, herr⟩ := (he.fails_iff env').2 ⟨x, hx, by rwa [hbound, not_or]⟩
  obtain ⟨z, hz, rfl⟩ := he.reportsMissing herr
  -- what is not bound now is what was missing at the start
  have hpred : (fun y => !env'.contains y) = fun y => decide (y ∉ env ∧ y ∉ names es) := by
    funext y
    rw [Bool.eq_iff_iff, decide_eq_true_iff, ← not_or, ← hbound, Bool.not_eq_true',
      ← Bool.not_eq_true, Std.ExtTreeMap.contains_iff_mem]
  rw [hpred, h.find, Option.some.injEq] at hz
  rw [herr, hz]

end Gaps

/-! ### Runs -/

variable {E V σ : Type} [Equation E V] [Domain V] [DecidableEq V] {es : Array E}
  {S : Schedule es.size σ} {env : Environment V}

/-- **A run that begins with all equations in order ends at the first gap, or before it when the
budget is used up.** -/
theorem run_of_firstGap {At : Nat → σ → Prop} (hS : S.InOrder At) (hes : ∀ e ∈ es, Dependable e)
    {i : Fin es.size} {x : String} (hgap : FirstGap es env i x) {k : Nat}
    {p : Progress V σ es.size} (hk : k ≤ i) (hat : At k p.schedule)
    (hbound : ∀ y, y ∈ p.env ↔ y ∈ env ∨ y ∈ names es) (budget : Nat) :
    (run es S budget p).2 = .error
      (if i < k + budget then .unbound x else .nonTermination (p.evaluations + budget)) := by
  induction budget generalizing k p with
  | zero =>
    obtain ⟨s, hnext, -⟩ := hS.next (Nat.lt_of_le_of_lt hk i.isLt) hat
    rw [if_neg (by omega)]
    simp only [run, hnext, Nat.add_zero]
  | succ budget ih =>
    obtain ⟨s, hnext, hlearn⟩ := hS.next (Nat.lt_of_le_of_lt hk i.isLt) hat
    rcases Nat.eq_or_lt_of_le hk with rfl | hlt
    · have hev : evaluate (nth es i) p.env = .error (.unbound x) :=
        evaluate_eq_error_iff.2 (hgap.eval_eq_error (hes _ (nth_mem es i)) hbound)
      rw [if_pos (by omega)]
      simp only [run, hnext, hev]
    · -- all names that an equation before the gap reads are bound
      have hread : ∀ y ∈ deps (nth es ⟨k, hlt.trans i.isLt⟩), y ∈ p.env :=
        fun y hy => (hbound y).2 (hgap.before _ hlt y hy)
      obtain ⟨v, hv⟩ := (hes _ (nth_mem es _)).total hread
      have hsame := Iterates.mem_iff (.single ⟨_, nth_mem es _, v, hv, rfl⟩)
        fun y hy => (hbound y).2 (.inr hy)
      rw [run_succ_of_ok hnext (evaluate_eq_ok_iff.2 ⟨v, hv, rfl, rfl⟩),
        ih hlt (hlearn _) fun y => (hsame y).trans (hbound y)]
      have hcount : ∀ n, n + 1 + budget = n + (budget + 1) := by omega
      simp only [Progress.advance, hcount]

/-- The invariant of the loop: settled equations have found all names that they read. -/
structure Inspected (Valid : σ → Prop) (settled : σ → Fin es.size → Prop)
    (p : Progress V σ es.size) : Prop where
  valid : Valid p.schedule
  found : ∀ j, settled p.schedule j → ∀ y ∈ deps (nth es j), y ∈ p.env

variable {Valid : σ → Prop} {settled : σ → Fin es.size → Prop}
  {reads : Fin es.size → Fin es.size → Prop}

theorem Turn.inspected (hfair : S.Fair Valid settled reads) (hes : ∀ e ∈ es, Strict e)
    {p q : Progress V σ es.size} (hp : Inspected Valid settled p) (h : Turn es S p q) :
    Inspected Valid settled q := by
  obtain @⟨i, s, env', changed, hnext, hev⟩ := h
  obtain ⟨v, hv, rfl, -⟩ := evaluate_eq_ok_iff.1 hev
  refine ⟨hfair.valid changed hp.valid hnext, fun j hj y hy => ?_⟩
  have hsettled : j = i ∨ settled p.schedule j := by
    cases changed with
    | false => exact hfair.quiet hp.valid hnext hj
    | true => exact (hfair.change hp.valid hnext hj).2
  have hmem : y ∈ p.env := by
    rcases hsettled with rfl | hj
    · exact hes _ (nth_mem es j) hv y hy
    · exact hp.found j hj y hy
  exact Std.ExtTreeMap.mem_insert.2 (.inr hmem)

/-- **Where a fair schedule stops, no name is missing.** -/
theorem deps_mem_of_run (hfair : S.Fair Valid settled reads) (hes : ∀ e ∈ es, Strict e)
    {p : Progress V σ es.size} (hp : Inspected Valid settled p) {budget : Nat}
    (h : (run es S budget p).2 = .ok ()) :
    ∀ e ∈ es, ∀ y ∈ deps e, y ∈ (run es S budget p).1.env := by
  intro e he
  obtain ⟨j, rfl⟩ := exists_nth he
  have hq : Inspected Valid settled (run es S budget p).1 :=
    (turns_run budget p).invariant hp fun _ _ hp ht => ht.inspected hfair hes hp
  exact hq.found j (hfair.done hq.valid (next_eq_none_of_ok h))

/-! ### Solvers -/

omit [DecidableEq V] in
theorem mem_of_iterates_seedAll {env' : Environment V} (h : Iterates es (seedAll es env) env')
    (y : String) : y ∈ env' ↔ y ∈ env ∨ y ∈ names es := by
  rw [h.mem_iff (fun z hz => mem_seedAll.2 (.inl hz)), mem_seedAll, or_comm]

/-- A system that is solved has no gap. -/
theorem deps_mem_of_solve (hes : ∀ e ∈ es, Strict e) {strategy : Strategy} {options : Options}
    {solution : Solution V} (h : solve strategy es env options = .ok solution) :
    ∀ e ∈ es, ∀ y ∈ deps e, y ∈ env ∨ y ∈ names es := by
  intro e he y hy
  rw [← mem_of_iterates_seedAll (iterates_solve h)]
  cases strategy with
  | chaotic =>
    rw [solve_chaotic, map_eq_ok_iff] at h
    obtain ⟨_, hok, rfl⟩ := h
    refine deps_mem_of_run (Sweep.fair es.size) hes ⟨trivial, fun j hj => ?_⟩ hok e he y hy
    exact absurd hj.2 (Nat.not_lt_zero _)
  | worklist =>
    rw [solve_worklist, map_eq_ok_iff] at h
    obtain ⟨_, hok, rfl⟩ := h
    refine deps_mem_of_run (Worklist.fair options.order es) hes
      ⟨Worklist.valid_full es.size, fun j hj => ?_⟩ hok e he y hy
    exact absurd (List.mem_finRange j) hj

/-- How the solvers deal with the missing names of a system. -/
structure NoticesGaps (es : Array E) (env : Environment V) : Prop where
  /-- Sweeps and a worklist that is served in turn report the first gap, if the budget takes them
  there. -/
  first : ∀ {i x}, FirstGap es env i x → ∀ budget : Nat,
    (∀ order, solve .chaotic es env ⟨budget, order⟩ =
      .error (if i < budget then .unbound x else .nonTermination budget)) ∧
    solve .worklist es env ⟨budget, .fifo⟩ =
      .error (if i < budget then .unbound x else .nonTermination budget)
  /-- No solver gets past a gap. -/
  never_ok : ∀ {i x}, FirstGap es env i x → ∀ strategy options solution,
    solve strategy es env options ≠ .ok solution
  /-- Without a gap no solver reports one. -/
  only_gaps : (∀ e ∈ es, ∀ y ∈ deps e, y ∈ env ∨ y ∈ names es) → ∀ strategy options err,
    solve strategy es env options = .error err → err.kind ≠ .lookup
  /-- There is a gap, or there is none. -/
  decided : (∀ e ∈ es, ∀ y ∈ deps e, y ∈ env ∨ y ∈ names es) ∨ ∃ i x, FirstGap es env i x

theorem noticesGaps (hes : ∀ e ∈ es, Dependable e) (env : Environment V) : NoticesGaps es env where
  first {i x} hgap budget := by
    have hbound : ∀ y, y ∈ seedAll es env ↔ y ∈ env ∨ y ∈ names es := mem_of_iterates_seedAll .refl
    constructor
    · intro order
      have hrun := run_of_firstGap (p := start es env {}) (Sweep.inOrder es.size) hes hgap
        (Nat.zero_le _) rfl hbound budget
      rw [Nat.zero_add] at hrun
      rw [solve_chaotic, map_eq_error_iff, hrun]
      simp [start]
    · have hrun := run_of_firstGap (p := start es env (.full es.size))
        (Worklist.inOrder es (.ofEquations es)) hes hgap (Nat.zero_le _) List.prefix_rfl hbound
        budget
      rw [Nat.zero_add] at hrun
      rw [solve_worklist, map_eq_error_iff, hrun]
      simp [start]
  never_ok hgap strategy options solution h := by
    obtain ⟨hx, hmissing⟩ := hgap.mem
    have hbound := deps_mem_of_solve (fun e he => (hes e he).strict) h _ (nth_mem es _) _ hx
    exact not_or.2 hmissing hbound
  only_gaps hknown strategy options err h := by
    rw [solve_error_of_total (fun env' hit e he => ?_) h]
    · simp [Error.kind]
    · exact (hes e he).total fun y hy => (mem_of_iterates_seedAll hit y).2 (hknown e he y hy)
  decided := bound_or_exists_firstGap es env

/-- **Missing names are noticed by all solvers, and by sweeps and a worklist that is served in turn
in the same way.**  This holds of the equations of every analysis, from whatever program they come,
and of every start. -/
theorem missing_names_noticed :
    (∀ (es : Array ConstantEquation) (env : Environment Flat), NoticesGaps es env) ∧
    (∀ (es : Array ReachingEquation) (env : Environment DefinitionSet), NoticesGaps es env) ∧
    (∀ (es : Array DominatorEquation) (env : Environment DominatorSet), NoticesGaps es env) ∧
    (∀ (es : Array LivenessEquation) (env : Environment LocationSet), NoticesGaps es env) ∧
    ∀ (es : Array Inclusion) (env : Environment LocationSet), NoticesGaps es env :=
  ⟨fun _ => noticesGaps fun e _ => e.dependable, fun _ => noticesGaps fun e _ => e.dependable,
    fun _ => noticesGaps fun e _ => e.dependable, fun _ => noticesGaps fun e _ => e.dependable,
    fun _ => noticesGaps fun e _ => e.dependable⟩

/-- A program that has not been built: edges of its second instruction lead nowhere. -/
def danglingEdges : Program where
  instructions := #[⟨0, .move "a" "b", .sequential [1], []⟩,
    ⟨1, .move "b" "a", .sequential [0, 8, 9], [0]⟩]

/-- The point after the second instruction has the third equation, and what it needs first and
cannot have is what is live before instruction 8.  A budget of three evaluations takes sweeps there,
a budget of two takes a worklist to the end of the budget only, and a worklist that is served the
other way does not succeed within any budget. -/
theorem missing_names_noticed_danglingEdges :
    ∃ i, i.val = 2 ∧ FirstGap (Liveness.equations danglingEdges) ∅ i "IN_8" ∧
      solve .chaotic (Liveness.equations danglingEdges) ∅ ⟨3, .fifo⟩ = .error (.unbound "IN_8") ∧
      solve .worklist (Liveness.equations danglingEdges) ∅ ⟨2, .fifo⟩ =
        .error (.nonTermination 2) ∧
      ∀ budget solution, solve .worklist (Liveness.equations danglingEdges) ∅ ⟨budget, .lifo⟩ ≠
        .ok solution := by
  have hgap : FirstGap (Liveness.equations danglingEdges) ∅ ⟨2, by decide +kernel⟩ "IN_8" :=
    ⟨by decide +kernel, by decide +kernel⟩
  obtain ⟨-, -, -, hliveness, -⟩ := missing_names_noticed
  have hnotices := hliveness (Liveness.equations danglingEdges) ∅
  exact ⟨_, rfl, hgap, (hnotices.first hgap 3).1 .fifo, (hnotices.first hgap 2).2,
    fun budget => hnotices.never_ok hgap .worklist ⟨budget, .lifo⟩⟩

end Dataflow.Solver

import Dataflow.Proofs.Contract
import Dataflow.Proofs.Solver.FixedPoint

/-!
# Solutions are stable

A solver that starts from a solution finds nothing to do.  It evaluates every equation once to see
that, and returns what it started from (`solve_of_satisfied`).  Nothing is asked of the equations
here: as long as all of them are satisfied no evaluation changes anything, so a schedule only has to
go through what it has left to do (`Schedule.Drains`).

Together with what is known of every iteration this says what solvers return, whether the equations
are monotone or not (`solve_stable`): a fixed point, with facts for the names of the start and of
the equations, in which names without an equation have kept their facts, and from which no solver
moves away.
-/

namespace Dataflow.Solver

open Equation

/-! ### Schedules without changes -/

/-- A schedule that goes through what it has left, one evaluation after the other, as long as it is
calm: nothing has changed and nothing changes. -/
structure Schedule.Drains {n : Nat} {σ : Type} (S : Schedule n σ) (Calm : σ → Prop)
    (left : σ → Nat) : Prop where
  calm : ∀ {s s' i}, Calm s → S.next s = some (i, s') → Calm (S.learn i false s')
  next : ∀ {s s' i}, Calm s → S.next s = some (i, s') → left (S.learn i false s') + 1 = left s
  done : ∀ {s}, Calm s → S.next s = none → left s = 0

theorem Sweep.drains (n : Nat) :
    (schedule n).Drains (fun s => s.changed = false) fun s => n - s.cursor where
  calm := by
    intro s s' i hs hnext
    rcases next_cases hnext with ⟨-, -, rfl⟩ | ⟨-, hch, -, -⟩
    · simpa [schedule, learn] using hs
    · simp [hs] at hch
  next := by
    intro s s' i hs hnext
    rcases next_cases hnext with ⟨hc, -, rfl⟩ | ⟨-, hch, -, -⟩
    · simp only [schedule, learn]
      omega
    -- no other sweep follows a sweep without a change
    · simp [hs] at hch
  done := by
    intro s _ hnone
    have hc := (next_eq_none_iff.1 hnone).1
    omega

variable {E V σ : Type} [Equation E V]

theorem Worklist.drains (order : Order) (es : Array E) :
    (schedule order es (.ofEquations es)).Drains (fun _ => True) fun w => w.queue.length where
  calm := fun _ _ => trivial
  next := by
    intro w w' i _ hnext
    have hlength := (next_cases hnext).1.length_eq
    exact hlength.symm
  done := by
    intro w _ hnone
    rw [next_eq_none_iff.1 hnone, List.length_nil]

/-! ### Runs from a solution -/

variable [Domain V] [DecidableEq V] {es : Array E} {S : Schedule es.size σ} {Calm : σ → Prop}
  {left : σ → Nat}

/-- The run `q` has come from `p` without a change: it has the same environment, and has spent on
evaluations what it has no longer left to do. -/
structure Undisturbed (Calm : σ → Prop) (left : σ → Nat) (p q : Progress V σ es.size) : Prop where
  env : q.env = p.env
  calm : Calm q.schedule
  spent : q.evaluations + left q.schedule = p.evaluations + left p.schedule

theorem Turn.undisturbed (hS : S.Drains Calm left) {p q q' : Progress V σ es.size}
    (hsat : ∀ e ∈ es, Satisfied e p.env) (hq : Undisturbed Calm left p q) (h : Turn es S q q') :
    Undisturbed Calm left p q' := by
  obtain @⟨i, s, env, changed, hnext, hev⟩ := h
  obtain ⟨u, hu, hname⟩ := hsat _ (nth_mem es i)
  rw [← hq.env] at hu hname
  rcases evaluate_cases (Environment.mem_iff_exists.2 ⟨u, hname⟩) hev with
    ⟨rfl, -, rfl⟩ | ⟨-, v, w, hv, hw, hne, -⟩
  · have hspent := hq.spent
    have hleft := hS.next hq.calm hnext
    refine ⟨hq.env, hS.calm hq.calm hnext, ?_⟩
    show q.evaluations + 1 + left (S.learn i false s) = _
    omega
  -- a satisfied equation gives what its name is bound to
  · rw [hname, Option.some.injEq] at hv
    rw [hu, Except.ok.injEq] at hw
    exact absurd (hv.symm.trans hw) hne

theorem run_of_satisfied (hS : S.Drains Calm left) {p : Progress V σ es.size}
    (hsat : ∀ e ∈ es, Satisfied e p.env) (hp : Calm p.schedule) {budget : Nat}
    (hbudget : left p.schedule ≤ budget) :
    (run es S budget p).2 = .ok () ∧ (run es S budget p).1.env = p.env ∧
      (run es S budget p).1.evaluations = p.evaluations + left p.schedule := by
  have hq : Undisturbed Calm left p (run es S budget p).1 :=
    (turns_run budget p).invariant ⟨rfl, hp, rfl⟩ fun _ _ hq ht => ht.undisturbed hS hsat hq
  have hspent := hq.spent
  rcases run_cases budget p with ⟨hok, hnone⟩ | ⟨i, s, hnext, ⟨-, hbudget'⟩ | ⟨e, herr, -⟩⟩
  · have hleft := hS.done hq.calm hnone
    exact ⟨hok, hq.env, by omega⟩
  -- a budget for all that is left is not used up while something is left
  · have hleft := hS.next hq.calm hnext
    omega
  · obtain ⟨v, hv, -⟩ := hsat _ (nth_mem es i)
    rw [evaluate_eq_error_iff, hq.env, hv] at herr
    cases herr

/-- **From a solution every solver returns the solution**, after one evaluation of each
equation. -/
theorem solve_of_satisfied {env : Environment V} (hsat : ∀ e ∈ es, Satisfied e env)
    (strategy : Strategy) {options : Options} (hbudget : es.size ≤ options.maxEvaluations) :
    solve strategy es env options = .ok ⟨env, es.size⟩ := by
  have hseed : seedAll es env = env := by
    refine seedAll_eq_self fun x hx => ?_
    obtain ⟨e, he, rfl⟩ := mem_names.1 hx
    obtain ⟨v, -, hv⟩ := hsat e he
    exact Environment.mem_iff_exists.2 ⟨v, hv⟩
  have hstart : ∀ e ∈ es, Satisfied e (seedAll es env) := hseed.symm ▸ hsat
  cases strategy with
  | chaotic =>
    obtain ⟨hok, henv, hcount⟩ := run_of_satisfied (p := start es env {}) (Sweep.drains es.size)
      hstart rfl hbudget
    rw [solve_chaotic, hok, henv, hcount]
    simp [start, hseed, Except.map]
  | worklist =>
    have hfull : (Worklist.full es.size).queue.length = es.size := by simp [Worklist.full]
    obtain ⟨hok, henv, hcount⟩ := run_of_satisfied (p := start es env (.full es.size))
      (Worklist.drains options.order es) hstart trivial (hfull.symm ▸ hbudget)
    rw [solve_worklist, hok, henv, hcount]
    simp [start, hseed, hfull, Except.map]

/-! ### What solvers return -/

/-- **Solvers return fixed points, whether the equations are monotone or not.**  Sweeps ask nothing
of the equations.  A worklist asks that they read only the names they list, and that different
equations with one name all read it.  The solution binds the names of the start and those of the
equations, keeps the facts of names without an equation, and is returned by every solver that is
started from it, after as many evaluations as there are equations. -/
theorem solve_stable {strategy : Strategy} {env : Environment V} {options : Options}
    {solution : Solution V}
    (hworklist : strategy = .worklist → (∀ e ∈ es, Local e) ∧ SharedNamesRead es)
    (h : solve strategy es env options = .ok solution) :
    (∀ e ∈ es, ∃ v, eval e solution.environment = .ok v ∧
      solution.environment[name e]? = some v) ∧
    (∀ x, x ∈ solution.environment ↔ x ∈ env ∨ x ∈ names es) ∧
    (∀ x ∉ names es, solution.environment[x]? = env[x]?) ∧
    ∀ strategy' (options' : Options), es.size ≤ options'.maxEvaluations →
      solve strategy' es solution.environment options' = .ok ⟨solution.environment, es.size⟩ := by
  have hsat : ∀ e ∈ es, Satisfied e solution.environment := by
    cases strategy with
    | chaotic => exact satisfied_of_chaotic h
    | worklist =>
      obtain ⟨hlocal, hshared⟩ := hworklist rfl
      exact satisfied_of_worklist hlocal hshared h
  have hit := iterates_solve h
  refine ⟨hsat, fun x => ?_, fun x hx => ?_, fun strategy' options' hbudget => ?_⟩
  · rw [hit.mem_iff (fun y hy => mem_seedAll.2 (.inl hy)), mem_seedAll, or_comm]
  · rw [hit.getElem?_of_notMem hx, getElem?_seedAll, if_neg hx]
  · exact solve_of_satisfied hsat strategy' hbudget

/-- Two equations for `x` that read what the other one gives, and a chain of equations from `x`
on. -/
def sharedPhis : Array ConstantEquation :=
  #[.phi "x" ["x", "a"], .phi "x" ["x", "b"], .move "y" "x", .binary .add "z" "y" "a"]

/-- A start from which the fact of `y` has to fall. -/
def sharedPhisStart : Environment Flat :=
  .ofList [("a", Flat.constant (.int 1)), ("b", Flat.constant (.int 1)), ("y", Flat.nac)]

/-- A worklist lets the fact of `y` fall, and sweeps from its solution change nothing. -/
theorem solve_stable_sharedPhis :
    (∀ e ∈ sharedPhis, Local e) ∧ SharedNamesRead sharedPhis ∧
    ∃ solution, solve .worklist sharedPhis sharedPhisStart { order := .lifo } = .ok solution ∧
      solution.environment["y"]? = some (.constant (.int 1)) ∧
      (∀ e ∈ sharedPhis, ∃ v, eval e solution.environment = .ok v ∧
        solution.environment[name e]? = some v) ∧
      (∀ x, x ∈ solution.environment ↔ x ∈ sharedPhisStart ∨ x ∈ names sharedPhis) ∧
      solution.environment["b"]? = sharedPhisStart["b"]? ∧
      solve .chaotic sharedPhis solution.environment { maxEvaluations := 4 } =
        .ok ⟨solution.environment, 4⟩ := by
  have hlocal : ∀ e ∈ sharedPhis, Local e := fun e _ => e.isLocal
  have hshared : SharedNamesRead sharedPhis := by
    unfold SharedNamesRead
    decide
  have hy : ((solve .worklist sharedPhis sharedPhisStart { order := .lifo }).map
      fun solution => solution.environment["y"]?) = .ok (some (.constant (.int 1))) := by decide
  obtain ⟨solution, h, hy⟩ := map_eq_ok_iff.1 hy
  obtain ⟨hsat, hmem, hframe, hagain⟩ := solve_stable (fun _ => ⟨hlocal, hshared⟩) h
  exact ⟨hlocal, hshared, solution, h, hy, hsat, hmem, hframe "b" (by decide),
    hagain .chaotic { maxEvaluations := 4 } (by decide)⟩

end Dataflow.Solver

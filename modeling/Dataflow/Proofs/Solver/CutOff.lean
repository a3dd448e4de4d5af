import Dataflow.Proofs.Contract
import Dataflow.Proofs.Solver.Schedules

/-!
# The budget only cuts off

The evaluations of a solver do not depend on how many of them it is allowed.  Two runs with
different budgets go the same way until the smaller budget is used up.  So if one of them succeeds,
the number of its evaluations tells which budgets do: those that cover it, all with the same result
(`run_eq_of_ok`).  And if an evaluation fails within one budget, it fails within every larger one
(`run_eq_of_error`).  `CutOff` puts this together for attempts of any kind, and `solve_cutOff` says
that solving is one, for every strategy and order.
-/

namespace Dataflow.Solver

open Equation

/-- An attempt on which the budget has no influence but to cut it off.  A success takes a certain
effort: every budget that covers the effort gives the same success, and every other one is used up
and reported.  An error for another reason is one of `Own`, and stays the same under every larger
budget. -/
structure CutOff {α : Type} (attempt : Nat → Except Error α) (effort : α → Nat)
    (Own : Error → Prop) : Prop where
  ok : ∀ {budget a}, attempt budget = .ok a → effort a ≤ budget ∧ ∀ budget',
    attempt budget' = if effort a ≤ budget' then .ok a else .error (.nonTermination budget')
  error : ∀ {budget e}, attempt budget = .error e → e = .nonTermination budget ∨
    Own e ∧ ∀ budget', budget ≤ budget' → attempt budget' = .error e

theorem CutOff.mono {α : Type} {attempt : Nat → Except Error α} {effort : α → Nat}
    {Own Own' : Error → Prop} (h : CutOff attempt effort Own) (hown : ∀ e, Own e → Own' e) :
    CutOff attempt effort Own' where
  ok := h.ok
  error herr := (h.error herr).imp_right fun ⟨he, hkept⟩ => ⟨hown _ he, hkept⟩

variable {E V σ : Type} [Equation E V] [Domain V] [DecidableEq V] {es : Array E}
  {S : Schedule es.size σ}

/-! ### Two runs of the loop -/

/-- Where nothing is left to choose, no budget is needed. -/
theorem run_of_next_eq_none {p : Progress V σ es.size} (h : S.next p.schedule = none)
    (budget : Nat) : run es S budget p = (p, .ok ()) := by
  cases budget <;> simp [run, h]

theorem run_succ_of_ok {p : Progress V σ es.size} {i : Fin es.size} {s : σ} {env : Environment V}
    {changed : Bool} (hnext : S.next p.schedule = some (i, s))
    (hev : evaluate (nth es i) p.env = .ok (env, changed)) (budget : Nat) :
    run es S (budget + 1) p = run es S budget (p.advance S i s env changed) := by
  simp only [run, hnext, hev]

/-- A run succeeds by finding nothing to choose, or by an evaluation and a run after it. -/
theorem run_ok_cases {budget : Nat} {p q : Progress V σ es.size}
    (h : run es S budget p = (q, .ok ())) :
    (S.next p.schedule = none ∧ q = p) ∨ ∃ left i s env changed, budget = left + 1 ∧
      S.next p.schedule = some (i, s) ∧ evaluate (nth es i) p.env = .ok (env, changed) ∧
      run es S left (p.advance S i s env changed) = (q, .ok ()) := by
  cases budget with
  | zero =>
    unfold run at h
    split at h
    · rename_i hnext
      cases h
      exact .inl ⟨hnext, rfl⟩
    · cases h
  | succ left =>
    unfold run at h
    split at h
    · rename_i hnext
      cases h
      exact .inl ⟨hnext, rfl⟩
    · rename_i i s hnext
      split at h
      · cases h
      · rename_i env changed hev
        exact .inr ⟨left, i, s, env, changed, rfl, hnext, hev, h⟩

/-- A run that succeeds has counted at least what was counted before it. -/
theorem run_evaluations_le {budget : Nat} {p q : Progress V σ es.size}
    (h : run es S budget p = (q, .ok ())) :
    p.evaluations ≤ q.evaluations ∧ q.evaluations ≤ p.evaluations + budget := by
  induction budget generalizing p with
  | zero =>
    rcases run_ok_cases h with ⟨-, rfl⟩ | ⟨_, _, _, _, _, hbudget, -⟩
    · exact ⟨Nat.le_refl _, Nat.le_refl _⟩
    · cases hbudget
  | succ budget ih =>
    rcases run_ok_cases h with ⟨-, rfl⟩ | ⟨_, i, s, env, changed, ⟨rfl⟩, -, -, hrun⟩
    · exact ⟨Nat.le_refl _, Nat.le_add_right _ _⟩
    · obtain ⟨hlower, hupper⟩ := ih hrun
      simp only [Progress.advance] at hlower hupper
      omega

/-- **Budgets that cover a successful run repeat it, and all others are used up.** -/
theorem run_eq_of_ok {budget : Nat} {p q : Progress V σ es.size}
    (h : run es S budget p = (q, .ok ())) (budget' : Nat) :
    (q.evaluations ≤ p.evaluations + budget' → run es S budget' p = (q, .ok ())) ∧
      (p.evaluations + budget' < q.evaluations →
        (run es S budget' p).2 = .error (.nonTermination (p.evaluations + budget'))) := by
  induction budget generalizing p budget' with
  | zero =>
    rcases run_ok_cases h with ⟨hnext, rfl⟩ | ⟨_, _, _, _, _, hbudget, -⟩
    · exact ⟨fun _ => run_of_next_eq_none hnext budget', by omega⟩
    · cases hbudget
  | succ budget ih =>
    rcases run_ok_cases h with ⟨hnext, rfl⟩ | ⟨_, i, s, env, changed, ⟨rfl⟩, hnext, hev, hrun⟩
    · exact ⟨fun _ => run_of_next_eq_none hnext budget', by omega⟩
    · have hcount : (p.advance S i s env changed).evaluations = p.evaluations + 1 := rfl
      have hlower := (run_evaluations_le hrun).1
      cases budget' with
      -- the run makes an evaluation, which no budget at all does not cover
      | zero => exact ⟨by omega, fun _ => by simp [run, hnext]⟩
      | succ budget' =>
        have hbudget : p.evaluations + (budget' + 1) = p.evaluations + 1 + budget' := by omega
        rw [run_succ_of_ok hnext hev, hbudget, ← hcount]
        exact ih hrun budget'

/-- **An evaluation that fails within a budget fails within every larger one.** -/
theorem run_eq_of_error {budget : Nat} {p : Progress V σ es.size} {e : Error}
    (h : (run es S budget p).2 = .error e) (hne : e ≠ .nonTermination (p.evaluations + budget))
    {budget' : Nat} (hle : budget ≤ budget') : (run es S budget' p).2 = .error e := by
  induction budget generalizing p budget' with
  | zero =>
    unfold run at h
    split at h
    · cases h
    · exact absurd (Except.error.inj h).symm hne
  | succ budget ih =>
    obtain ⟨budget', rfl⟩ : ∃ b, budget' = b + 1 := ⟨budget' - 1, by omega⟩
    unfold run at h
    split at h
    · cases h
    · rename_i i s hnext
      split at h
      · rename_i hev
        simp only [run, hnext, hev]
        exact h
      · rename_i env changed hev
        rw [run_succ_of_ok hnext hev]
        refine ih h ?_ (Nat.le_of_succ_le_succ hle)
        show e ≠ .nonTermination (p.evaluations + 1 + budget)
        rwa [Nat.add_right_comm, Nat.add_assoc]

/-! ### Solvers -/

/-- The error comes from an equation of the system. -/
def Reports (es : Array E) (err : Error) : Prop :=
  ∃ e ∈ es, ∃ env : Environment V, eval e env = .error err

/-- A run without evaluations before it, as an attempt with its budget. -/
theorem run_cutOff {p : Progress V σ es.size} (hzero : p.evaluations = 0) :
    CutOff (fun budget => (run es S budget p).2.map fun _ =>
        (⟨(run es S budget p).1.env, (run es S budget p).1.evaluations⟩ : Solution V))
      (·.evaluations) (Reports es) where
  ok := by
    intro budget solution h
    obtain ⟨⟨⟩, hok, rfl⟩ := map_eq_ok_iff.1 h
    have hrun : run es S budget p = ((run es S budget p).1, .ok ()) := Prod.ext rfl hok
    refine ⟨by simpa [hzero] using (run_evaluations_le hrun).2, fun budget' => ?_⟩
    have hbudget' := run_eq_of_ok hrun budget'
    rw [hzero, Nat.zero_add] at hbudget'
    split_ifs with hle
    · rw [hbudget'.1 hle]
      rfl
    · rw [hbudget'.2 (Nat.lt_of_not_le hle)]
      rfl
  error := by
    intro budget e h
    have herr := map_eq_error_iff.1 h
    have hbudget : p.evaluations + budget = budget := by rw [hzero, Nat.zero_add]
    by_cases hne : e = .nonTermination budget
    · exact .inl hne
    · refine .inr ⟨?_, fun budget' hle => ?_⟩
      · rcases run_cases budget p with ⟨hok, -⟩ | ⟨i, s, -, ⟨hend, hspent⟩ | ⟨e', hev, hend⟩⟩
        · rw [herr] at hok
          cases hok
        · rw [herr, hspent, hbudget] at hend
          exact absurd (Except.error.inj hend) hne
        · rw [herr] at hend
          cases hend
          exact ⟨_, nth_mem es i, _, evaluate_eq_error_iff.1 hev⟩
      · exact map_eq_error_iff.2 (run_eq_of_error herr (hbudget.symm ▸ hne) hle)

/-- **The budget of a solver is only a cut-off**, whatever the equations and the start. -/
theorem solve_cutOff (strategy : Strategy) (es : Array E) (env : Environment V) (order : Order) :
    CutOff (fun budget => solve strategy es env ⟨budget, order⟩) (·.evaluations) (Reports es) := by
  cases strategy with
  | chaotic =>
    simp only [solve_chaotic]
    exact run_cutOff (p := start es env ({} : Sweep)) rfl
  | worklist =>
    simp only [solve_worklist]
    exact run_cutOff (S := Worklist.schedule order es (.ofEquations es))
      (p := start es env (.full es.size)) rfl

omit [Domain V] [DecidableEq V] in
/-- If all equations report missing names only, so does a solver that does not run out. -/
theorem lookup_of_reports (h : ∀ e : E, ReportsMissing e) {err : Error} (herr : Reports es err) :
    err.kind = .lookup := by
  obtain ⟨e, -, env, heval⟩ := herr
  obtain ⟨x, -, rfl⟩ := h e heval
  rfl

/-- A run that succeeds without an evaluation had nothing to choose. -/
theorem next_eq_none_of_run {budget : Nat} {p q : Progress V σ es.size}
    (h : run es S budget p = (q, .ok ())) (hsame : q.evaluations = p.evaluations) :
    S.next p.schedule = none := by
  have hzero := (run_eq_of_ok h 0).1 (by omega)
  rcases run_ok_cases hzero with ⟨hnext, -⟩ | ⟨_, _, _, _, _, hbudget, -⟩
  · exact hnext
  · cases hbudget

/-- A system with equations is not solved without an evaluation. -/
theorem evaluations_pos {strategy : Strategy} {env : Environment V} {options : Options}
    {solution : Solution V} (h : solve strategy es env options = .ok solution)
    (hsize : 0 < es.size) : 0 < solution.evaluations := by
  by_contra hnot
  cases strategy with
  | chaotic =>
    rw [solve_chaotic, map_eq_ok_iff] at h
    obtain ⟨⟨⟩, hok, rfl⟩ := h
    have hnone := next_eq_none_of_run (Prod.ext rfl hok) (Nat.eq_zero_of_not_pos hnot)
    have hempty : es.size ≤ 0 := (Sweep.next_eq_none_iff.1 hnone).1
    omega
  | worklist =>
    rw [solve_worklist, map_eq_ok_iff] at h
    obtain ⟨⟨⟩, hok, rfl⟩ := h
    have hnone := next_eq_none_of_run (Prod.ext rfl hok) (Nat.eq_zero_of_not_pos hnot)
    have hempty : List.finRange es.size = [] := Worklist.next_eq_none_iff.1 hnone
    have hlength := congrArg List.length hempty
    rw [List.length_finRange, List.length_nil] at hlength
    omega

end Dataflow.Solver

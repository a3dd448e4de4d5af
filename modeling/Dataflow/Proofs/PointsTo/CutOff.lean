import Dataflow.Proofs.PointsTo.Termination
import Dataflow.Proofs.Solver.CutOff

/-!
# One budget for all rounds

The rounds of the points-to analysis share a budget: each of them gets what the rounds before it
have left, and if it runs out, what they have used is added to the count again.  Seen from outside
the rounds make no difference.  A round is cut off as a solver is (`Underway.round_eq_of_ok`), with
the evaluations before it counted in, and so are all rounds together (`saturate_eq_of_ok`).

The limit on the number of rounds plays no part in this.  A round that brings something new makes an
evaluation (`Underway.evaluations_lt`), so the budget is used up before the limit is.

`budgets_only_cut_off` collects what budgets do in all solvers.  An error that an equation reports
is passed on as it is, also if it claims that a budget was used up (`nonTermination_of_equation`).
No equation of the analyses does that.
-/

namespace Dataflow

open Solver Equation

namespace PointsTo

variable {p : Program} {r r' : PointsTo} {strategy : Strategy} {order : Order} {budget : Nat}

/-! ### One round -/

namespace Underway

/-- A round that brings something new makes an evaluation. -/
theorem evaluations_lt {options : Options} (hr : Underway p r)
    (h : (PointsTo.round p strategy options r).result = .ok (r', true)) :
    r.evaluations < r'.evaluations := by
  obtain ⟨found, solution, hfound, hsol, rfl, hmore⟩ := hr.round_eq_ok_iff.1 h
  have hsize : 0 < (system (r.edges ∪ found)).size := by
    by_contra hzero
    -- without inclusions no inclusion is new and no set changes
    have hempty : system (r.edges ∪ found) = #[] :=
      Array.eq_empty_of_size_eq_zero (Nat.eq_zero_of_not_pos hzero)
    have hnone : ∀ e, e ∉ r.edges ∪ found := by
      intro e he
      have hmem := mem_system.2 he
      rw [hempty] at hmem
      simp at hmem
    have hedges : r.edges ∪ found = r.edges := by
      refine Std.ExtTreeSet.ext_mem fun e => ⟨fun he => absurd he (hnone e), fun he => ?_⟩
      exact Std.ExtTreeSet.mem_union_iff.2 (.inl he)
    have hsame : solution.environment = r.environment := by
      have hit := iterates_of_round hr.within (fun e => (hr.mem_edges_union hfound).1) hsol
      refine Std.ExtTreeMap.ext_getElem? fun x => hit.getElem?_of_notMem fun hx => ?_
      obtain ⟨e, he, -⟩ := mem_names.1 hx
      exact hnone e (mem_system.1 he)
    simp [hedges, hsame] at hmore
  have hpos := evaluations_pos hsol hsize
  show r.evaluations < r.evaluations + solution.evaluations
  omega

/-- **A round is only cut off by the budget**, with the evaluations before it counted in. -/
theorem round_eq_of_ok (hr : Underway p r) (hspent : r.evaluations ≤ budget) {more : Bool}
    (h : (PointsTo.round p strategy ⟨budget, order⟩ r).result = .ok (r', more)) :
    r.evaluations ≤ r'.evaluations ∧ r'.evaluations ≤ budget ∧ ∀ budget', r.evaluations ≤ budget' →
      (PointsTo.round p strategy ⟨budget', order⟩ r).result =
        if r'.evaluations ≤ budget' then .ok (r', more) else .error (.nonTermination budget') := by
  obtain ⟨found, solution, hfound, hsol, rfl, rfl⟩ := hr.round_eq_ok_iff.1 h
  have hcut := (solve_cutOff strategy _ r.environment order).ok hsol
  have hle : solution.evaluations ≤ budget - r.evaluations := hcut.1
  have hcount : (r.next (r.edges ∪ found) solution).evaluations =
      r.evaluations + solution.evaluations := rfl
  refine ⟨by omega, by omega, fun budget' hspent' => ?_⟩
  rw [round_result hfound, hcut.2 (budget' - r.evaluations)]
  by_cases hcover : (r.next (r.edges ∪ found) solution).evaluations ≤ budget'
  · rw [if_pos (by omega), if_pos hcover]
  · rw [if_neg (by omega), if_neg hcover]
    show Except.error (Error.nonTermination (r.evaluations + (budget' - r.evaluations))) = _
    rw [Nat.add_sub_cancel' hspent']

/-- A round that runs out reports the whole budget. -/
theorem round_error_eq (hr : Underway p r) (hspent : r.evaluations ≤ budget) {e : Error}
    (h : (PointsTo.round p strategy ⟨budget, order⟩ r).result = .error e) :
    e = .nonTermination budget := by
  obtain ⟨found, hfound⟩ := hr.exists_memoryInclusions
  rw [round_result hfound] at h
  split at h
  · rename_i e' herr
    cases h
    rw [error_of_round hr.within (fun e => (hr.mem_edges_union hfound).1) herr]
    show Error.nonTermination (r.evaluations + (budget - r.evaluations)) = _
    rw [Nat.add_sub_cancel' hspent]
  · cases h

end Underway

/-! ### All rounds -/

/-- **The rounds together are only cut off by the budget**, as long as the limit on their number
exceeds what is left of it. -/
theorem saturate_eq_of_ok {limit : Nat} (hr : Underway p r) (hspent : r.evaluations ≤ budget)
    (h : (saturate p strategy ⟨budget, order⟩ limit r).result = .ok r') :
    r.evaluations ≤ r'.evaluations ∧ r'.evaluations ≤ budget ∧ ∀ budget' limit',
      r.evaluations ≤ budget' → budget' < r.evaluations + limit' →
      (saturate p strategy ⟨budget', order⟩ limit' r).result =
        if r'.evaluations ≤ budget' then .ok r' else .error (.nonTermination budget') := by
  induction limit generalizing r with
  | zero => cases h
  | succ limit ih =>
    rw [saturate_succ_result] at h
    split at h
    · cases h
    · rename_i r₁ hround
      obtain ⟨-, hle₁, hcut₁⟩ := hr.round_eq_of_ok hspent hround
      obtain ⟨hbelow, hle, hcut⟩ := ih (hr.round hround).1 hle₁ h
      have hlt := hr.evaluations_lt hround
      refine ⟨by omega, hle, fun budget' limit' hspent' hlimit => ?_⟩
      obtain ⟨limit', rfl⟩ : ∃ n, limit' = n + 1 := ⟨limit' - 1, by omega⟩
      rw [saturate_succ_result, hcut₁ budget' hspent']
      by_cases hcover : r₁.evaluations ≤ budget'
      · rw [if_pos hcover]
        exact hcut budget' limit' hcover (by omega)
      -- the budget does not even cover this round
      · rw [if_neg hcover, if_neg (by omega)]
    · rename_i r₁ hround
      cases h
      obtain ⟨hbelow, hle, hcut⟩ := hr.round_eq_of_ok hspent hround
      refine ⟨hbelow, hle, fun budget' limit' hspent' hlimit => ?_⟩
      obtain ⟨limit', rfl⟩ : ∃ n, limit' = n + 1 := ⟨limit' - 1, by omega⟩
      rw [saturate_succ_result, hcut budget' hspent']
      split_ifs <;> rfl

/-- Rounds that run out report the whole budget. -/
theorem saturate_error_eq {limit : Nat} (hr : Underway p r) (hspent : r.evaluations ≤ budget)
    (hlimit : budget < r.evaluations + limit) {e : Error}
    (h : (saturate p strategy ⟨budget, order⟩ limit r).result = .error e) :
    e = .nonTermination budget := by
  induction limit generalizing r with
  | zero => omega
  | succ limit ih =>
    rw [saturate_succ_result] at h
    split at h
    · rename_i e' hround
      cases h
      exact hr.round_error_eq hspent hround
    · rename_i r₁ hround
      have hlt := hr.evaluations_lt hround
      exact ih (hr.round hround).1 (hr.round_eq_of_ok hspent hround).2.1 (by omega) h
    · cases h

/-- The budget of the analysis is only a cut-off, and no other error can happen. -/
theorem solve_cutOff (p : Program) (strategy : Strategy) (order : Order) :
    CutOff (fun budget => solve p strategy ⟨budget, order⟩) (·.evaluations) fun _ => False where
  ok {budget r} h := by
    have hsolve : (saturate p strategy ⟨budget, order⟩ (budget + 1) (start p)).result = .ok r := h
    obtain ⟨-, hle, hcut⟩ := saturate_eq_of_ok (underway_start p) (Nat.zero_le budget) hsolve
    refine ⟨hle, fun budget' => hcut budget' (budget' + 1) (Nat.zero_le budget') ?_⟩
    show budget' < 0 + (budget' + 1)
    omega
  error {budget e} h := by
    refine .inl (saturate_error_eq (underway_start p) (Nat.zero_le budget) ?_ h)
    show budget < 0 + (budget + 1)
    omega

end PointsTo

/-- Systems of equations of this kind are only cut off by the budget, and fail for no other reason
than a missing name. -/
def OnlyCutOff (E : Type) {V : Type} [Equation E V] [Domain V] [DecidableEq V] : Prop :=
  ∀ (strategy : Strategy) (es : Array E) (env : Environment V) (order : Order),
    CutOff (fun budget => solve strategy es env ⟨budget, order⟩) (·.evaluations)
      fun e => e.kind = .lookup

theorem onlyCutOff_of_reportsMissing {E V : Type} [Equation E V] [Domain V] [DecidableEq V]
    (h : ∀ e : E, ReportsMissing e) : OnlyCutOff E :=
  fun strategy es env order =>
    (solve_cutOff strategy es env order).mono fun _ => lookup_of_reports h

/-- **Budgets only cut off.**  A success with `k` evaluations keeps to its budget, every budget from
`k` on gives the same success, and every smaller one is reported as used up.  An error is such a
report, with the whole budget, or one that an equation has reported, and then it is the same under
every larger budget.  The equations of the analyses report missing names only.  The points-to
analysis has no errors but that its budget is used up. -/
theorem budgets_only_cut_off :
    (∀ {E V : Type} [Equation E V] [Domain V] [DecidableEq V] (strategy : Strategy) (es : Array E)
      (env : Environment V) (order : Order),
      CutOff (fun budget => solve strategy es env ⟨budget, order⟩) (·.evaluations)
        (Reports es)) ∧
    OnlyCutOff ConstantEquation ∧ OnlyCutOff ReachingEquation ∧ OnlyCutOff DominatorEquation ∧
    OnlyCutOff LivenessEquation ∧ OnlyCutOff Inclusion ∧
    ∀ (p : Program) (strategy : Strategy) (order : Order),
      CutOff (fun budget => PointsTo.solve p strategy ⟨budget, order⟩) (·.evaluations)
        fun _ => False :=
  ⟨solve_cutOff, onlyCutOff_of_reportsMissing ConstantEquation.reportsMissing,
    onlyCutOff_of_reportsMissing ReachingEquation.reportsMissing,
    onlyCutOff_of_reportsMissing DominatorEquation.reportsMissing,
    onlyCutOff_of_reportsMissing LivenessEquation.reportsMissing,
    onlyCutOff_of_reportsMissing Inclusion.reportsMissing, PointsTo.solve_cutOff⟩

/-- The cell with a reference to itself takes eleven evaluations in three rounds.  Ten are not
enough, and they are all reported, though they are spread over the rounds. -/
theorem budgets_only_cut_off_selfReference :
    ∃ r, PointsTo.solve PointsTo.selfReference .worklist ⟨100, .fifo⟩ = .ok r ∧
      r.evaluations = 11 ∧ r.rounds = 3 ∧
      PointsTo.solve PointsTo.selfReference .worklist ⟨11, .fifo⟩ = .ok r ∧
      PointsTo.solve PointsTo.selfReference .worklist ⟨10, .fifo⟩ =
        .error (.nonTermination 10) := by
  obtain ⟨-, -, -, -, -, -, hpointsTo⟩ := budgets_only_cut_off
  have heffort : ((PointsTo.solve PointsTo.selfReference .worklist ⟨100, .fifo⟩).map fun r =>
      (r.evaluations, r.rounds)) = .ok (11, 3) := by decide +kernel
  obtain ⟨r, hsolve, hcount⟩ := map_eq_ok_iff.1 heffort
  obtain ⟨hevaluations, hrounds⟩ := Prod.mk.inj hcount
  have hcut := ((hpointsTo PointsTo.selfReference .worklist .fifo).ok hsolve).2
  refine ⟨r, hsolve, hevaluations, hrounds, ?_, ?_⟩
  · exact (hcut 11).trans (if_pos (by omega))
  · exact (hcut 10).trans (if_neg (by omega))

/-- An equation that gives up by itself, and claims to have seen a number of evaluations. -/
structure Abandoned where
  evaluations : Nat

instance : Equation Abandoned Flat where
  name _ := "x"
  deps _ := []
  eval e _ := .error (.nonTermination e.evaluations)

/-- **Not every report of a budget that is used up names the budget.**  Solvers pass on what an
equation reports, and that can be such a report with any number. -/
theorem nonTermination_of_equation :
    solve .chaotic #[Abandoned.mk 3] ∅ ⟨10, .fifo⟩ = .error (.nonTermination 3) ∧
    solve .worklist #[Abandoned.mk 3] ∅ ⟨10, .lifo⟩ = .error (.nonTermination 3) ∧
    ¬ ∀ (strategy : Strategy) (es : Array Abandoned) (env : Environment Flat) (options : Options)
      (n : Nat), solve strategy es env options = .error (.nonTermination n) →
        n = options.maxEvaluations := by
  have hchaotic : solve .chaotic #[Abandoned.mk 3] ∅ ⟨10, .fifo⟩ = .error (.nonTermination 3) := rfl
  refine ⟨hchaotic, rfl, fun hbudget => ?_⟩
  have hthree := hbudget _ _ _ _ 3 hchaotic
  exact absurd hthree (by decide)

end Dataflow

import Dataflow.Proofs.Solver.Schedules
import Mathlib.Data.Finset.Card

/-!
# Budgets that suffice

How many evaluations a solver needs is a matter of bookkeeping.  What a schedule still has to do
without further changes is its rank, and each change costs it a limited number of further
evaluations (`Schedule.Paced`): sweeps go over all equations again, and a worklist only over those
that read the changed name.  On the other side stands a `Potential` of the environment that pays for
the changes.  Evaluations, potential and rank together never grow along a run (`Turns.balance_le`),
so a budget that covers potential and rank at the start is never used up (`chaotic_ok_of_budget`,
`worklist_ok_of_budget`).
-/

namespace Dataflow.Solver

open Equation

/-- A schedule that does not dawdle: without a change its rank falls, and a change by equation `i`
raises it by less than `cost i`. -/
structure Schedule.Paced {n : Nat} {σ : Type} (S : Schedule n σ) (Valid : σ → Prop)
    (rank : σ → Nat) (cost : Fin n → Nat) : Prop where
  valid : ∀ {s s' i} (changed : Bool), Valid s → S.next s = some (i, s') →
    Valid (S.learn i changed s')
  quiet : ∀ {s s' i}, Valid s → S.next s = some (i, s') → rank (S.learn i false s') + 1 ≤ rank s
  change : ∀ {s s' i}, Valid s → S.next s = some (i, s') →
    rank (S.learn i true s') + 1 ≤ rank s + cost i

/-- The evaluations that are left in this sweep, and those of another one if this one has changed
something. -/
def Sweep.rank (n : Nat) (s : Sweep) : Nat := (n - s.cursor) + if s.changed then n else 0

theorem Sweep.paced (n : Nat) :
    (schedule n).Paced (fun _ => True) (rank n) fun _ => n where
  valid := fun _ _ _ => trivial
  quiet := by
    rintro s s' i - hnext
    rcases next_cases hnext with ⟨hc, -, rfl⟩ | ⟨hc, hch, -, rfl⟩
    · simp only [schedule, learn, rank, Bool.or_false]
      omega
    -- the sweep that ends has changed something, so its rank already counts the new sweep
    · have hpos := i.isLt
      simp only [schedule, learn, rank, hch, Bool.or_false, if_true, Bool.false_eq_true, if_false]
      omega
  change := by
    rintro s s' i - hnext
    rcases next_cases hnext with ⟨hc, -, rfl⟩ | ⟨hc, hch, -, rfl⟩
    · simp only [schedule, learn, rank, Bool.or_true, if_true]
      omega
    · have hpos := i.isLt
      simp only [schedule, learn, rank, hch, Bool.or_true, if_true]
      omega

theorem Worklist.length_queue_push_le {n : Nat} (w : Worklist n) (i : Fin n) :
    (w.push i).queue.length ≤ w.queue.length + 1 := by
  unfold push
  split
  · exact Nat.le_succ _
  · simp

theorem Worklist.length_queue_pushAll_le {n : Nat} (w : Worklist n) (is : List (Fin n)) :
    (w.pushAll is).queue.length ≤ w.queue.length + is.length := by
  induction is generalizing w with
  | nil => exact Nat.le_refl _
  | cons i is ih =>
    have hpush := w.length_queue_push_le i
    have hrest := ih (w.push i)
    rw [List.length_cons]
    show ((w.push i).pushAll is).queue.length ≤ _
    omega

variable {E V : Type} [Equation E V]

/-- How many equations read the name of equation `i`. -/
def readerCount (es : Array E) (i : Fin es.size) : Nat :=
  ((Readers.ofEquations es).of (name (nth es i))).length

theorem readerCount_le_size (es : Array E) (i : Fin es.size) : readerCount es i ≤ es.size := by
  rw [readerCount, Readers.of_ofEquations]
  exact (List.length_filter_le _ _).trans_eq List.length_finRange

theorem Worklist.paced (order : Order) (es : Array E) :
    (schedule order es (.ofEquations es)).Paced Valid (fun w => w.queue.length)
      (readerCount es) where
  valid := (fair order es).valid
  quiet := by
    intro w w' i _ hnext
    -- the queue gets shorter by the chosen equation
    have hlength := (next_cases hnext).1.length_eq
    rw [List.length_cons] at hlength
    exact hlength.symm.le
  change := by
    intro w w' i _ hnext
    have hlength := (next_cases hnext).1.length_eq
    rw [List.length_cons] at hlength
    -- at most the readers of the changed name are queued again
    have hpush := w'.length_queue_pushAll_le ((Readers.ofEquations es).of (name (nth es i)))
    show (w'.pushAll ((Readers.ofEquations es).of (name (nth es i)))).queue.length + 1 ≤
      w.queue.length + ((Readers.ofEquations es).of (name (nth es i))).length
    omega

/-! ### Potentials -/

variable [Domain V] [DecidableEq V] {σ : Type} {es : Array E}

/-- A measure of environments that pays for changes.  On the environments in `Inv`, which
evaluations do not leave, no evaluation fails, and a change by equation `i` takes at least `cost i`
from the measure. -/
structure Potential (es : Array E) (Inv : Environment V → Prop) (measure : Environment V → Nat)
    (cost : Fin es.size → Nat) : Prop where
  bound : ∀ {env}, Inv env → ∀ e ∈ es, name e ∈ env
  total : ∀ {env}, Inv env → ∀ e ∈ es, ∃ v, eval e env = .ok v
  keep : ∀ {env env'}, Inv env → Evaluates es env env' → Inv env'
  pays : ∀ {env i v w}, Inv env → env[name (nth es i)]? = some v → eval (nth es i) env = .ok w →
    v ≠ w → measure (env.insert (name (nth es i)) w) + cost i ≤ measure env

variable {S : Schedule es.size σ} {Valid : σ → Prop} {rank : σ → Nat} {cost : Fin es.size → Nat}
  {Inv : Environment V → Prop} {measure : Environment V → Nat}

/-- The balance of a run: what it has spent, what it can still be asked to pay for changes, and what
is left to do without any. -/
def balance (measure : Environment V → Nat) (rank : σ → Nat) (p : Progress V σ es.size) : Nat :=
  p.evaluations + measure p.env + rank p.schedule

theorem Turn.balance_le (hS : S.Paced Valid rank cost) (hes : Potential es Inv measure cost)
    {p q : Progress V σ es.size} (hvalid : Valid p.schedule) (hinv : Inv p.env)
    (h : Turn es S p q) :
    Valid q.schedule ∧ Inv q.env ∧ balance measure rank q ≤ balance measure rank p := by
  obtain @⟨i, s, env, changed, hnext, hev⟩ := h
  have hkeep : Inv env := by
    obtain ⟨v, hv, rfl, -⟩ := evaluate_eq_ok_iff.1 hev
    exact hes.keep hinv ⟨_, nth_mem es i, v, hv, rfl⟩
  refine ⟨hS.valid changed hvalid hnext, hkeep, ?_⟩
  show p.evaluations + 1 + measure env + rank (S.learn i changed s) ≤
    p.evaluations + measure p.env + rank p.schedule
  rcases evaluate_cases (hes.bound hinv _ (nth_mem es i)) hev with
    ⟨rfl, -, rfl⟩ | ⟨rfl, v, w, hv, hw, hne, rfl⟩
  · have hrank := hS.quiet hvalid hnext
    omega
  · have hrank := hS.change hvalid hnext
    have hpays := hes.pays hinv hv hw hne
    omega

theorem Turns.balance_le (hS : S.Paced Valid rank cost) (hes : Potential es Inv measure cost)
    {p q : Progress V σ es.size} (hvalid : Valid p.schedule) (hinv : Inv p.env)
    (h : Turns es S p q) :
    Valid q.schedule ∧ Inv q.env ∧ balance measure rank q ≤ balance measure rank p := by
  refine h.invariant (I := fun q => Valid q.schedule ∧ Inv q.env ∧
    balance measure rank q ≤ balance measure rank p) ⟨hvalid, hinv, le_refl _⟩ ?_
  rintro q₁ q₂ ⟨hvalid₁, hinv₁, hle⟩ hturn
  obtain ⟨hvalid₂, hinv₂, hle'⟩ := hturn.balance_le hS hes hvalid₁ hinv₁
  exact ⟨hvalid₂, hinv₂, hle'.trans hle⟩

/-- **A budget that covers potential and rank is never used up.** -/
theorem run_ok_of_budget (hS : S.Paced Valid rank cost) (hes : Potential es Inv measure cost)
    {p : Progress V σ es.size} (hvalid : Valid p.schedule) (hinv : Inv p.env) {budget : Nat}
    (hbudget : measure p.env + rank p.schedule ≤ budget) :
    (run es S budget p).2 = .ok () ∧
      (run es S budget p).1.evaluations + measure (run es S budget p).1.env ≤
        balance measure rank p := by
  obtain ⟨hvalid', hinv', hle⟩ := (turns_run budget p).balance_le hS hes hvalid hinv
  unfold balance at hle ⊢
  rcases run_cases budget p with ⟨hok, -⟩ | ⟨i, s, hnext, ⟨-, hspent⟩ | ⟨e, herr, -⟩⟩
  · exact ⟨hok, by omega⟩
  -- the budget is used up, but the rank is not
  · have hrank := hS.quiet hvalid' hnext
    omega
  · obtain ⟨v, hv⟩ := hes.total hinv' _ (nth_mem es i)
    rw [evaluate_eq_error_iff.1 herr] at hv
    cases hv

omit [Domain V] [DecidableEq V] in
/-- What pays for a change pays for less. -/
theorem Potential.of_le (hes : Potential es Inv measure cost) {cost' : Fin es.size → Nat}
    (hle : ∀ i, cost' i ≤ cost i) : Potential es Inv measure cost' where
  bound := hes.bound
  total := hes.total
  keep := hes.keep
  pays {_ i _ _} hinv hv hw hne := (Nat.add_le_add_left (hle i) _).trans (hes.pays hinv hv hw hne)

section Solvers

variable {env : Environment V} {options : Options}

/-- Sweeps succeed with a budget for the potential of the seeded start, if that pays one sweep for
each change, and for one sweep. -/
theorem chaotic_ok_of_budget (hes : Potential es Inv measure fun _ => es.size)
    (hinv : Inv (seedAll es env))
    (hbudget : measure (seedAll es env) + es.size ≤ options.maxEvaluations) :
    ∃ solution, solve .chaotic es env options = .ok solution ∧
      solution.evaluations + measure solution.environment ≤
        measure (seedAll es env) + es.size := by
  have hrank : Sweep.rank es.size {} = es.size := by simp [Sweep.rank]
  obtain ⟨hok, hle⟩ := run_ok_of_budget (p := start es env {}) (Sweep.paced es.size) hes trivial
    hinv (hrank.symm ▸ hbudget)
  refine ⟨_, (solve_chaotic es env options).trans (congrArg _ hok), hle.trans ?_⟩
  show 0 + measure (seedAll es env) + Sweep.rank es.size {} ≤ _
  omega

/-- Worklists succeed with a budget for the potential of the seeded start, if that pays for the
readers of each change, and for one evaluation of each equation. -/
theorem worklist_ok_of_budget (hes : Potential es Inv measure (readerCount es))
    (hinv : Inv (seedAll es env))
    (hbudget : measure (seedAll es env) + es.size ≤ options.maxEvaluations) :
    ∃ solution, solve .worklist es env options = .ok solution ∧
      solution.evaluations + measure solution.environment ≤
        measure (seedAll es env) + es.size := by
  have hrank : (Worklist.full es.size).queue.length = es.size := by simp [Worklist.full]
  obtain ⟨hok, hle⟩ := run_ok_of_budget (p := start es env (.full es.size))
    (Worklist.paced options.order es) hes (Worklist.valid_full es.size) hinv
    (hrank.symm ▸ hbudget)
  refine ⟨_, (solve_worklist es env options).trans (congrArg _ hok), hle.trans ?_⟩
  show 0 + measure (seedAll es env) + (Worklist.full es.size).queue.length ≤ _
  omega

/-- Solvers succeed with a budget for the potential of the seeded start, if that pays one sweep for
each change, and for one evaluation of each equation. -/
theorem solve_ok_of_budget (hes : Potential es Inv measure fun _ => es.size)
    (hinv : Inv (seedAll es env)) (strategy : Strategy)
    (hbudget : measure (seedAll es env) + es.size ≤ options.maxEvaluations) :
    ∃ solution, solve strategy es env options = .ok solution ∧
      solution.evaluations + measure solution.environment ≤
        measure (seedAll es env) + es.size := by
  cases strategy with
  | chaotic => exact chaotic_ok_of_budget hes hinv hbudget
  | worklist => exact worklist_ok_of_budget (hes.of_le (readerCount_le_size es)) hinv hbudget

end Solvers

/-! ### Counting -/

/-- Fewer elements have a stronger property, if some element of the set shows the difference. -/
theorem card_filter_lt_card_filter {α : Type} {U : Finset α} {P P' : α → Prop} [DecidablePred P]
    [DecidablePred P'] (h : ∀ a, P' a → P a) {a : α} (ha : a ∈ U) (hP : P a) (hP' : ¬ P' a) :
    (U.filter P').card < (U.filter P).card := by
  refine Finset.card_lt_card ((Finset.ssubset_iff_of_subset ?_).2 ⟨a, ?_, ?_⟩)
  · exact Finset.monotone_filter_right U fun b _ => h b
  · exact Finset.mem_filter.2 ⟨ha, hP⟩
  · exact fun hmem => hP' (Finset.mem_filter.1 hmem).2

/-! ### Failures -/

/-- If evaluations do not fail, the loop fails only by using up its budget. -/
theorem run_error_of_total {p : Progress V σ es.size} {budget : Nat} {e : Error}
    (htotal : ∀ env, Iterates es p.env env → ∀ e ∈ es, ∃ v, eval e env = .ok v)
    (h : (run es S budget p).2 = .error e) : e = .nonTermination (p.evaluations + budget) := by
  have hit := (turns_run (S := S) budget p).iterates
  rcases run_cases budget p with ⟨hok, -⟩ | ⟨i, s, -, ⟨herr, hspent⟩ | ⟨e', herr, -⟩⟩
  · rw [h] at hok
    cases hok
  · rw [h, hspent] at herr
    exact Except.error.inj herr
  · obtain ⟨v, hv⟩ := htotal _ hit _ (nth_mem es i)
    rw [evaluate_eq_error_iff.1 herr] at hv
    cases hv

theorem solve_error_of_total {env : Environment V} {strategy : Strategy} {options : Options}
    {e : Error}
    (htotal : ∀ env', Iterates es (seedAll es env) env' → ∀ e ∈ es, ∃ v, eval e env' = .ok v)
    (h : solve strategy es env options = .error e) :
    e = .nonTermination options.maxEvaluations := by
  have hzero : 0 + options.maxEvaluations = options.maxEvaluations := Nat.zero_add _
  cases strategy with
  | chaotic =>
    rw [solve_chaotic, map_eq_error_iff] at h
    exact hzero ▸ run_error_of_total htotal h
  | worklist =>
    rw [solve_worklist, map_eq_error_iff] at h
    exact hzero ▸ run_error_of_total htotal h

end Dataflow.Solver

import Dataflow.Proofs.Order
import Dataflow.Proofs.Outcome
import Dataflow.Solver.Solve
import Mathlib.Logic.Relation

/-!
# Iteration

Whatever its schedule, a solver only ever evaluates equations in place.  `Evaluates` is one such
evaluation and `Iterates` any number of them in any order.  What holds of every iteration
holds of every solver, because a run is an iteration (`Turns.iterates`, `iterates_solve`):

* names without an equation keep their facts, and no name becomes bound or unbound
  (`Iterates.getElem?_of_notMem`, `Iterates.mem_iff`),
* monotone equations never take an environment past one that satisfies them
  (`Iterates.le_of_satisfied`),
* what no evaluation breaks holds of every solution (`solve_invariant`).

The loop itself moves by `Turn`s, which also show what the schedule does; `run_cases` lists the
three ways in which it ends.
-/

namespace Dataflow

namespace Equation

variable {E V : Type} [Equation E V]

/-- The names that the equations of a system give facts to, with repetitions. -/
def names (es : Array E) : List String := es.toList.map name

theorem mem_names {es : Array E} {x : String} : x ∈ names es ↔ ∃ e ∈ es, name e = x := by
  simp [names]

theorem name_mem_names {es : Array E} {e : E} (he : e ∈ es) : name e ∈ names es :=
  mem_names.2 ⟨e, he, rfl⟩

theorem nth_mem (es : Array E) (i : Fin es.size) : nth es i ∈ es := Array.getElem_mem i.isLt

theorem exists_nth {es : Array E} {e : E} (he : e ∈ es) : ∃ i, nth es i = e := by
  obtain ⟨i, hi, rfl⟩ := Array.getElem_of_mem he
  exact ⟨⟨i, hi⟩, rfl⟩

/-- The equation reads no name but those it lists. -/
def Local (e : E) : Prop :=
  ∀ ⦃env env' : Environment V⦄, (∀ x ∈ deps e, env[x]? = env'[x]?) → eval e env = eval e env'

/-- From a larger environment the equation does not get a smaller fact. -/
def Monotone [Domain V] (e : E) : Prop :=
  ∀ ⦃lower upper : Environment V⦄ ⦃v w : V⦄, lower.Le upper →
    eval e lower = .ok v → eval e upper = .ok w → Domain.Le v w

/-- The equation gives a fact wherever all names that it reads are bound. -/
def Total (e : E) : Prop :=
  ∀ ⦃env : Environment V⦄, (∀ x ∈ deps e, x ∈ env) → ∃ v, eval e env = .ok v

/-- The name of the equation is bound to the fact that the equation gives. -/
def Satisfied (e : E) (env : Environment V) : Prop :=
  ∃ v, eval e env = .ok v ∧ env[name e]? = some v

/-- A local equation does not notice a change of a name that it does not read. -/
theorem Local.eval_insert {e : E} (he : Local e) {x : String} (hx : x ∉ deps e)
    (env : Environment V) (v : V) : eval e (env.insert x v) = eval e env := by
  refine he fun y hy => ?_
  rw [Environment.getElem?_insert, if_neg]
  rintro rfl
  exact hx hy

variable [Domain V]

/-- An evaluation of an equation with a bound name either finds the equation satisfied, or binds its
name to another fact. -/
theorem evaluate_cases [DecidableEq V] {e : E} {env env' : Environment V} {changed : Bool}
    (hbound : name e ∈ env) (h : evaluate e env = .ok (env', changed)) :
    (changed = false ∧ Satisfied e env ∧ env' = env) ∨
      (changed = true ∧ ∃ v w, env[name e]? = some v ∧ eval e env = .ok w ∧ v ≠ w ∧
        env' = env.insert (name e) w) := by
  obtain ⟨w, hw, rfl, rfl⟩ := evaluate_eq_ok_iff.1 h
  obtain ⟨v, hv⟩ := Environment.mem_iff_exists.1 hbound
  rw [hv, Option.getD_some]
  by_cases hvw : v = w
  · subst hvw
    exact .inl ⟨by simp, ⟨v, hw, hv⟩, Environment.insert_eq_self hv⟩
  · exact .inr ⟨by simp [hvw], v, w, rfl, hw, hvw, rfl⟩

/-! ### Seeding -/

theorem getElem?_seedAll (es : Array E) (env : Environment V) (x : String) :
    (seedAll es env)[x]? =
      if x ∈ names es then some (env[x]?.getD Domain.initial) else env[x]? := by
  rw [seedAll, ← Array.foldl_toList, names, ← Environment.getElem?_foldl_seed, List.foldl_map]

theorem mem_seedAll {es : Array E} {env : Environment V} {x : String} :
    x ∈ seedAll es env ↔ x ∈ names es ∨ x ∈ env := by
  rw [Std.ExtTreeMap.mem_iff_isSome_getElem?, getElem?_seedAll]
  split_ifs with hx
  · simp [hx]
  · simp [hx]

/-- Where nothing is known, all names are seeded with the initial fact. -/
theorem eq_initial_of_seedAll {es : Array E} {x : String} {v : V}
    (h : (seedAll es ∅)[x]? = some v) : v = Domain.initial := by
  rw [getElem?_seedAll] at h
  split_ifs at h
  · simp only [Std.ExtTreeMap.getElem?_empty, Option.getD_none, Option.some.injEq] at h
    exact h.symm
  · simp at h

/-- Nothing is left to seed where all equations have facts. -/
theorem seedAll_eq_self {es : Array E} {env : Environment V} (h : ∀ x ∈ names es, x ∈ env) :
    seedAll es env = env := by
  refine Std.ExtTreeMap.ext_getElem? fun x => ?_
  rw [getElem?_seedAll]
  split_ifs with hx
  · obtain ⟨v, hv⟩ := Environment.mem_iff_exists.1 (h x hx)
    rw [hv, Option.getD_some]
  · rfl

end Equation

namespace Solver

open Equation

variable {E V σ : Type} [Equation E V]

/-! ### Evaluations in any order -/

/-- One evaluation in place: an equation gives a fact and its name is bound to it. -/
def Evaluates (es : Array E) (env env' : Environment V) : Prop :=
  ∃ e ∈ es, ∃ v, eval e env = .ok v ∧ env' = env.insert (name e) v

/-- What holds of every fact that is computed from facts of which it holds, is kept by an
evaluation. -/
theorem Evaluates.facts {es : Array E} {Q : String → V → Prop}
    (hstep : ∀ e ∈ es, ∀ (env : Environment V) v, (∀ (x : String) w, env[x]? = some w → Q x w) →
      eval e env = .ok v → Q (name e) v)
    {env env' : Environment V} (h : Evaluates es env env')
    (henv : ∀ (x : String) w, env[x]? = some w → Q x w) :
    ∀ (x : String) w, env'[x]? = some w → Q x w := by
  obtain ⟨e, he, v, hv, rfl⟩ := h
  intro x w hw
  rw [Environment.getElem?_insert] at hw
  split_ifs at hw with hname
  · cases hw
    exact hname ▸ hstep e he env v henv hv
  · exact henv x w hw

/-- Any number of evaluations in any order. -/
def Iterates (es : Array E) : Environment V → Environment V → Prop :=
  Relation.ReflTransGen (Evaluates es)

namespace Iterates

variable {es : Array E} {env env' : Environment V}

theorem invariant {I : Environment V → Prop} (h : Iterates es env env') (h₀ : I env)
    (hstep : ∀ env env', I env → Evaluates es env env' → I env') : I env' := by
  induction h with
  | refl => exact h₀
  | tail _ hev ih => exact hstep _ _ ih hev

/-- Names without an equation keep their facts. -/
theorem getElem?_of_notMem (h : Iterates es env env') {x : String} (hx : x ∉ names es) :
    env'[x]? = env[x]? := by
  refine h.invariant (I := fun env' => env'[x]? = env[x]?) rfl ?_
  rintro env₁ _ ih ⟨e, he, v, -, rfl⟩
  rw [Environment.getElem?_insert, if_neg, ih]
  rintro rfl
  exact hx (name_mem_names he)

/-- Where all equations have facts, the bound names stay the same. -/
theorem mem_iff (h : Iterates es env env') (hbound : ∀ x ∈ names es, x ∈ env) (x : String) :
    x ∈ env' ↔ x ∈ env := by
  refine h.invariant (I := fun env' => x ∈ env' ↔ x ∈ env) Iff.rfl ?_
  rintro env₁ _ ih ⟨e, he, v, -, rfl⟩
  rw [Std.ExtTreeMap.mem_insert, Std.LawfulEqOrd.compare_eq_iff_eq, ih]
  constructor
  · rintro (rfl | hx)
    · exact hbound _ (name_mem_names he)
    · exact hx
  · exact .inr

/-- **Monotone equations stay below every environment that satisfies them**, if they start
there. -/
theorem le_of_satisfied [Domain V] {upper : Environment V} (h : Iterates es env env')
    (hmono : ∀ e ∈ es, Monotone e) (hsat : ∀ e ∈ es, Satisfied e upper) (hle : env.Le upper) :
    env'.Le upper := by
  refine h.invariant (I := fun env' => env'.Le upper) hle ?_
  rintro env₁ _ ih ⟨e, he, v, hv, rfl⟩
  obtain ⟨w, hw, hname⟩ := hsat e he
  exact ih.insert_left hname (hmono e he ih hv hw)

end Iterates

/-! ### Turns of the loop -/

variable [Domain V] [DecidableEq V] {es : Array E} {S : Schedule es.size σ}

/-- One turn of the loop: the schedule chooses an equation, and its evaluation succeeds. -/
inductive Turn (es : Array E) (S : Schedule es.size σ) (p : Progress V σ es.size) :
    Progress V σ es.size → Prop
  | mk {i : Fin es.size} {s : σ} {env : Environment V} {changed : Bool} :
      S.next p.schedule = some (i, s) → evaluate (nth es i) p.env = .ok (env, changed) →
      Turn es S p (p.advance S i s env changed)

/-- Any number of turns. -/
def Turns (es : Array E) (S : Schedule es.size σ) :
    Progress V σ es.size → Progress V σ es.size → Prop :=
  Relation.ReflTransGen (Turn es S)

theorem Turns.invariant {I : Progress V σ es.size → Prop} {p q : Progress V σ es.size}
    (h : Turns es S p q) (h₀ : I p) (hstep : ∀ p q, I p → Turn es S p q → I q) : I q := by
  induction h with
  | refl => exact h₀
  | tail _ ht ih => exact hstep _ _ ih ht

theorem turns_run (budget : Nat) (p : Progress V σ es.size) :
    Turns es S p (run es S budget p).1 := by
  induction budget generalizing p with
  | zero =>
    unfold run
    split <;> exact .refl
  | succ budget ih =>
    unfold run
    split
    · exact .refl
    · rename_i i s hnext
      split
      · exact .refl
      · rename_i env changed hev
        exact .head (.mk hnext hev) (ih _)

theorem Turns.iterates {p q : Progress V σ es.size} (h : Turns es S p q) :
    Iterates es p.env q.env := by
  refine h.invariant (I := fun q => Iterates es p.env q.env) .refl ?_
  rintro q₁ _ ih ⟨-, hev⟩
  obtain ⟨v, hv, rfl, -⟩ := evaluate_eq_ok_iff.1 hev
  exact Relation.ReflTransGen.tail ih ⟨_, nth_mem es _, v, hv, rfl⟩

/-- The three ways in which the loop ends: nothing is left to choose, the budget is used up, or
the evaluation of the chosen equation fails. -/
theorem run_cases (budget : Nat) (p : Progress V σ es.size) :
    let q := (run es S budget p).1
    ((run es S budget p).2 = .ok () ∧ S.next q.schedule = none) ∨
      ∃ i s, S.next q.schedule = some (i, s) ∧
        ((run es S budget p).2 = .error (.nonTermination q.evaluations) ∧
            q.evaluations = p.evaluations + budget ∨
          ∃ e, evaluate (nth es i) q.env = .error e ∧ (run es S budget p).2 = .error e) := by
  induction budget generalizing p with
  | zero =>
    unfold run
    split
    · rename_i hnext
      exact .inl ⟨rfl, hnext⟩
    · rename_i is hnext
      exact .inr ⟨is.1, is.2, hnext, .inl ⟨rfl, rfl⟩⟩
  | succ budget ih =>
    unfold run
    split
    · rename_i hnext
      exact .inl ⟨rfl, hnext⟩
    · rename_i i s hnext
      split
      · rename_i e hev
        exact .inr ⟨i, s, hnext, .inr ⟨e, hev, rfl⟩⟩
      · rename_i env changed hev
        have h := ih (p.advance S i s env changed)
        have hcount : (p.advance S i s env changed).evaluations + budget =
            p.evaluations + (budget + 1) := by
          show p.evaluations + 1 + budget = _
          omega
        rwa [hcount] at h

/-- A run that succeeds has nothing left to choose. -/
theorem next_eq_none_of_ok {budget : Nat} {p : Progress V σ es.size}
    (h : (run es S budget p).2 = .ok ()) : S.next (run es S budget p).1.schedule = none := by
  rcases run_cases budget p with ⟨-, hnone⟩ | ⟨_, _, -, ⟨herr, -⟩ | ⟨_, -, herr⟩⟩
  · exact hnone
  · rw [h] at herr
    cases herr
  · rw [h] at herr
    cases herr

/-! ### Solvers -/

omit [Equation E V] [Domain V] [DecidableEq V] in
theorem report_result (strategy : Strategy) (opening : Event E)
    (closing : Progress V σ es.size → Event E)
    (outcome : Progress V σ es.size × Except Error Unit) :
    (report es strategy opening closing outcome).result =
      outcome.2.map fun _ => ⟨outcome.1.env, outcome.1.evaluations⟩ := by
  unfold report
  split
  · rename_i h
    rw [h]; rfl
  · rename_i e h
    rw [h]; rfl

/-- The run behind a solver's sweeps. -/
abbrev sweepRun (es : Array E) (env : Environment V) (options : Options) :
    Progress V Sweep es.size × Except Error Unit :=
  run es (Sweep.schedule es.size) options.maxEvaluations (start es env {})

/-- The run behind a solver's worklist. -/
abbrev worklistRun (es : Array E) (env : Environment V) (options : Options) :
    Progress V (Worklist es.size) es.size × Except Error Unit :=
  run es (Worklist.schedule options.order es (.ofEquations es)) options.maxEvaluations
    (start es env (.full es.size))

theorem turns_sweepRun (es : Array E) (env : Environment V) (options : Options) :
    Turns es (Sweep.schedule es.size) (start es env {}) (sweepRun es env options).1 :=
  turns_run ..

theorem turns_worklistRun (es : Array E) (env : Environment V) (options : Options) :
    Turns es (Worklist.schedule options.order es (.ofEquations es))
      (start es env (.full es.size)) (worklistRun es env options).1 :=
  turns_run ..

theorem solve_chaotic (es : Array E) (env : Environment V) (options : Options) :
    solve .chaotic es env options = (sweepRun es env options).2.map fun _ =>
      ⟨(sweepRun es env options).1.env, (sweepRun es env options).1.evaluations⟩ :=
  report_result ..

theorem solve_worklist (es : Array E) (env : Environment V) (options : Options) :
    solve .worklist es env options = (worklistRun es env options).2.map fun _ =>
      ⟨(worklistRun es env options).1.env, (worklistRun es env options).1.evaluations⟩ :=
  report_result ..

/-- The solution of a solver is an iteration from the seeded start. -/
theorem iterates_solve {strategy : Strategy} {env : Environment V} {options : Options}
    {solution : Solution V} (h : solve strategy es env options = .ok solution) :
    Iterates es (seedAll es env) solution.environment := by
  cases strategy with
  | chaotic =>
    rw [solve_chaotic, map_eq_ok_iff] at h
    obtain ⟨-, -, rfl⟩ := h
    exact (turns_sweepRun es env options).iterates
  | worklist =>
    rw [solve_worklist, map_eq_ok_iff] at h
    obtain ⟨-, -, rfl⟩ := h
    exact (turns_worklistRun es env options).iterates

/-- **What holds of the initial fact, and of every fact that is computed from facts of which it
holds, holds of a solution** that is found without knowing anything at the start. -/
theorem solve_invariant {Q : String → V → Prop} (hinitial : ∀ x, Q x Domain.initial)
    (hstep : ∀ e ∈ es, ∀ (env : Environment V) v, (∀ (x : String) w, env[x]? = some w → Q x w) →
      eval e env = .ok v → Q (name e) v)
    {strategy : Strategy} {options : Options} {solution : Solution V}
    (h : solve strategy es ∅ options = .ok solution) {x : String} {v : V}
    (hx : solution.environment[x]? = some v) : Q x v := by
  suffices ∀ (x : String) v, solution.environment[x]? = some v → Q x v from this x v hx
  refine (iterates_solve h).invariant
    (I := fun env => ∀ (x : String) v, env[x]? = some v → Q x v) ?_ ?_
  · intro x v hv
    exact eq_initial_of_seedAll hv ▸ hinitial x
  · intro env env' henv hev
    exact hev.facts hstep henv

end Solver

end Dataflow

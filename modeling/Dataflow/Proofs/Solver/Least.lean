import Dataflow.Proofs.Contract
import Dataflow.Proofs.Solver.FixedPoint

/-!
# Least solutions

All solvers agree.  For a system of monotone equations with distinct names, started where no
equation gives less than what its name is bound to, the result of any solver is the least solution
above the start (`solve_isLeastSolution`).  Least solutions are unique, so neither the strategy, the
order of the worklist, the budget nor the order of the equations matters (`solvers_agree`).  The
solution from a larger start is above the smaller start too, so it is above the solution from there
(`solve_le_solve`).

That the result is below every solution holds of any iteration.  That it is above the start takes an
ascending chain: `Ascends` keeps for each equation an earlier environment from which the equation
gave what its name is bound to now, so the next evaluation cannot give less.
-/

namespace Dataflow.Solver

open Equation

variable {E V : Type} [Equation E V] [Domain V]

/-- A solution of a system above a start: it binds the same names to facts that are not smaller, has
the same facts for all names without an equation, and satisfies all equations. -/
structure IsSolution (es : Array E) (start env : Environment V) : Prop where
  above : start.Le env
  frame : ∀ x ∉ names es, env[x]? = start[x]?
  satisfied : ∀ e ∈ es, Satisfied e env

/-- A solution below all solutions. -/
structure IsLeastSolution (es : Array E) (start env : Environment V) : Prop where
  isSolution : IsSolution es start env
  least : ∀ env', IsSolution es start env' → env.Le env'

theorem IsLeastSolution.unique [LawfulDomain V] {es : Array E} {start env env' : Environment V}
    (h : IsLeastSolution es start env) (h' : IsLeastSolution es start env') : env = env' :=
  (h.least env' h'.isSolution).antisymm (h'.least env h.isSolution)

/-- A system and a start from which the least solution can be found by iteration. -/
structure WellPosed (es : Array E) (env : Environment V) : Prop where
  distinct : (names es).Nodup
  isLocal : ∀ e ∈ es, Local e
  monotone : ∀ e ∈ es, Monotone e
  /-- A name is not bound at the start, or its equation gives no less than what it is bound to. -/
  rising : ∀ e ∈ es, env[name e]? = none ∨ ∃ v w, (seedAll es env)[name e]? = some v ∧
    eval e (seedAll es env) = .ok w ∧ Domain.Le v w

/-- Where no equation has a fact yet, a monotone system is well posed. -/
theorem wellPosed_of_fresh {es : Array E} {env : Environment V} (hdistinct : (names es).Nodup)
    (hlocal : ∀ e ∈ es, Local e) (hmono : ∀ e ∈ es, Monotone e)
    (hfresh : ∀ x ∈ names es, x ∉ env) : WellPosed es env where
  distinct := hdistinct
  isLocal := hlocal
  monotone := hmono
  rising _ he := .inl (Std.ExtTreeMap.getElem?_eq_none (hfresh _ (name_mem_names he)))

/-! ### Systems in another order -/

section Perm

variable {es es' : Array E}

omit [Domain V] in
theorem names_perm (h : es.Perm es') : (names es).Perm (names es') :=
  (Array.perm_iff_toList_perm.1 h).map name

theorem seedAll_perm (h : es.Perm es') (env : Environment V) :
    seedAll es env = seedAll es' env := by
  refine Std.ExtTreeMap.ext_getElem? fun x => ?_
  simp only [getElem?_seedAll, (names_perm h).mem_iff]

theorem WellPosed.perm {env : Environment V} (hw : WellPosed es env) (h : es.Perm es') :
    WellPosed es' env where
  distinct := (names_perm h).nodup_iff.1 hw.distinct
  isLocal e he := hw.isLocal e (h.mem_iff.2 he)
  monotone e he := hw.monotone e (h.mem_iff.2 he)
  rising e he := seedAll_perm h env ▸ hw.rising e (h.mem_iff.2 he)

theorem IsSolution.perm {start env : Environment V} (hs : IsSolution es start env)
    (h : es.Perm es') : IsSolution es' start env where
  above := hs.above
  frame x hx := hs.frame x fun hmem => hx ((names_perm h).mem_iff.1 hmem)
  satisfied e he := hs.satisfied e (h.mem_iff.2 he)

theorem IsLeastSolution.perm {start env : Environment V} (hs : IsLeastSolution es start env)
    (h : es.Perm es') : IsLeastSolution es' start env :=
  ⟨hs.isSolution.perm h, fun env' henv' => hs.least env' (henv'.perm h.symm)⟩

end Perm

/-! ### The ascending chain -/

variable [LawfulDomain V] {es : Array E}

/-- The invariant of an ascending iteration: it is above its start, and every name is bound to the
initial fact or to no more than its equation gave from an environment not above this one. -/
structure Ascends (es : Array E) (start env : Environment V) : Prop where
  above : start.Le env
  supported : ∀ e ∈ es, ∀ v, env[name e]? = some v → v = Domain.initial ∨
    ∃ before w, Environment.Le before env ∧ eval e before = .ok w ∧ Domain.Le v w

/-- The next fact of an equation is not smaller than the last one. -/
theorem Ascends.le_eval {start env : Environment V} (h : Ascends es start env) {e : E}
    (he : e ∈ es) (hmono : Monotone e) {v w : V} (hv : env[name e]? = some v)
    (hw : eval e env = .ok w) : Domain.Le v w := by
  rcases h.supported e he v hv with rfl | ⟨before, u, hle, hu, hvu⟩
  · exact LawfulDomain.initial_le w
  · exact hvu.trans (hmono hle hu hw)

theorem Evaluates.ascends (hdistinct : (names es).Nodup) (hmono : ∀ e ∈ es, Monotone e)
    {start env env' : Environment V} (hbound : ∀ x ∈ names es, x ∈ start)
    (h : Ascends es start env) (hev : Evaluates es env env') : Ascends es start env' := by
  obtain ⟨e, he, w, hw, rfl⟩ := hev
  obtain ⟨v, hv⟩ : ∃ v, env[name e]? = some v := by
    have hmem := (h.above.mem_iff (name e)).1 (hbound _ (name_mem_names he))
    exact Environment.mem_iff_exists.1 hmem
  have hvw : Domain.Le v w := h.le_eval he (hmono e he) hv hw
  have hup : env.Le (env.insert (name e) w) := (Environment.Le.refl env).insert_right hv hvw
  refine ⟨h.above.trans hup, fun e' he' u hu => ?_⟩
  rw [Environment.getElem?_insert] at hu
  split_ifs at hu with hname
  -- the equation just evaluated gave its fact from `env`
  · have heq : e' = e := List.inj_on_of_nodup_map hdistinct (Array.mem_toList_iff.2 he')
      (Array.mem_toList_iff.2 he) hname
    subst heq
    cases hu
    exact .inr ⟨env, w, hup, hw, Domain.Le.refl w⟩
  -- the others have what they had
  · rcases h.supported e' he' u hu with hinit | ⟨before, w', hle, hw', huw⟩
    · exact .inl hinit
    · exact .inr ⟨before, w', hle.trans hup, hw', huw⟩

theorem seedAll_le_seedAll {lower upper : Environment V} (h : lower.Le upper) :
    (seedAll es lower).Le (seedAll es upper) := by
  intro x
  have hx := h x
  rw [getElem?_seedAll, getElem?_seedAll]
  generalize lower[x]? = a at hx ⊢
  generalize upper[x]? = b at hx ⊢
  split_ifs
  · cases hx with
    | none => exact .some (Domain.Le.refl _)
    | some hab => exact .some hab
  · exact hx

theorem WellPosed.ascends {env : Environment V} (hw : WellPosed es env) :
    Ascends es (seedAll es env) (seedAll es env) := by
  refine ⟨Environment.Le.refl _, fun e he v hv => ?_⟩
  rcases hw.rising e he with hnone | ⟨v', w, hv', hw', hle⟩
  · left
    rw [getElem?_seedAll, if_pos (name_mem_names he), hnone, Option.getD_none] at hv
    exact (Option.some.inj hv).symm
  · obtain rfl : v' = v := Option.some.inj (hv'.symm.trans hv)
    exact .inr ⟨_, w, Environment.Le.refl _, hw', hle⟩

/-! ### Solvers -/

variable [DecidableEq V]

/-- **Solvers find least solutions.** -/
theorem solve_isLeastSolution {env : Environment V} (hw : WellPosed es env) {strategy : Strategy}
    {options : Options} {solution : Solution V}
    (h : solve strategy es env options = .ok solution) :
    IsLeastSolution es (seedAll es env) solution.environment := by
  have hit := iterates_solve h
  have hbound : ∀ x ∈ names es, x ∈ seedAll es env := fun x hx => mem_seedAll.2 (.inl hx)
  have hasc : Ascends es (seedAll es env) solution.environment :=
    hit.invariant hw.ascends fun _ _ ha hev => hev.ascends hw.distinct hw.monotone hbound ha
  have hsat := satisfied_of_solve hw.isLocal (sharedNamesRead_of_nodup hw.distinct) h
  refine ⟨⟨hasc.above, fun x hx => hit.getElem?_of_notMem hx, hsat⟩, fun env' henv' => ?_⟩
  exact hit.le_of_satisfied hw.monotone henv'.satisfied henv'.above

/-- **A larger start has a larger solution**, however the two are found. -/
theorem solve_le_solve {lower upper : Environment V} (hw : WellPosed es upper)
    (hle : lower.Le upper) {strategy strategy' : Strategy} {options options' : Options}
    {solution solution' : Solution V} (h : solve strategy es lower options = .ok solution)
    (h' : solve strategy' es upper options' = .ok solution') :
    solution.environment.Le solution'.environment := by
  have hupper := (solve_isLeastSolution hw h').isSolution
  exact (iterates_solve h).le_of_satisfied hw.monotone hupper.satisfied
    ((seedAll_le_seedAll hle).trans hupper.above)

/-- **All solvers agree on the least solution.**  Whatever the strategies, the orders of the
worklists, the budgets and the orders of the equations, solvers that succeed find the same
environment, and it is the least solution above the seeded start. -/
theorem solvers_agree {env : Environment V} (hw : WellPosed es env) :
    (∀ strategy options solution, solve strategy es env options = .ok solution →
      IsLeastSolution es (seedAll es env) solution.environment) ∧
    ∀ es' : Array E, es.Perm es' → ∀ strategy strategy' options options' solution solution',
      solve strategy es env options = .ok solution →
      solve strategy' es' env options' = .ok solution' →
      solution.environment = solution'.environment := by
  refine ⟨fun _ _ _ h => solve_isLeastSolution hw h, ?_⟩
  intro es' hperm strategy strategy' options options' solution solution' h h'
  have hleast := solve_isLeastSolution hw h
  have hleast' := solve_isLeastSolution (hw.perm hperm) h'
  rw [← seedAll_perm hperm] at hleast'
  exact hleast.unique (hleast'.perm hperm.symm)

/-- Two names that include each other, and a third that includes one of them. -/
def cycle : Array Inclusion := #[⟨"p", "q"⟩, ⟨"q", "p"⟩, ⟨"r", "q"⟩]

/-- The same inclusions in another order. -/
def cycleReordered : Array Inclusion := #[⟨"r", "q"⟩, ⟨"q", "p"⟩, ⟨"p", "q"⟩]

/-- A start that binds one name of the cycle, and one name without an equation. -/
def cycleStart : Environment LocationSet := .ofList [("q", ({"ref_0"} : LocationSet)), ("s", ∅)]

theorem wellPosed_cycle : WellPosed cycle cycleStart where
  distinct := by decide
  isLocal e _ := e.isLocal
  monotone e _ := e.monotone
  rising := by
    simp only [cycle, List.mem_toArray, List.forall_mem_cons]
    exact ⟨.inl rfl, .inr ⟨_, _, rfl, rfl, by decide⟩, .inl rfl, by simp⟩

/-- Sweeps and both worklists agree on the cycle, one of them on another order of its
inclusions. -/
theorem solvers_agree_cycle : ∃ a b c : Solution LocationSet,
    solve .chaotic cycle cycleStart { maxEvaluations := 6 } = .ok a ∧
    solve .worklist cycle cycleStart { maxEvaluations := 5 } = .ok b ∧
    solve .worklist cycleReordered cycleStart { order := .lifo } = .ok c ∧
    a.environment = b.environment ∧ a.environment = c.environment ∧
    IsLeastSolution cycle (seedAll cycle cycleStart) a.environment := by
  obtain ⟨a, ha⟩ : ∃ a, solve .chaotic cycle cycleStart { maxEvaluations := 6 } = .ok a :=
    exists_eq_ok (by decide)
  obtain ⟨b, hb⟩ : ∃ b, solve .worklist cycle cycleStart { maxEvaluations := 5 } = .ok b :=
    exists_eq_ok (by decide)
  obtain ⟨c, hc⟩ : ∃ c, solve .worklist cycleReordered cycleStart { order := .lifo } = .ok c :=
    exists_eq_ok (by decide)
  have hperm : cycle.Perm cycleReordered := Array.perm_iff_toList_perm.2 (by decide)
  obtain ⟨hleast, hagree⟩ := solvers_agree wellPosed_cycle
  exact ⟨a, b, c, ha, hb, hc, hagree cycle (.refl cycle) _ _ _ _ a b ha hb,
    hagree cycleReordered hperm _ _ _ _ a c ha hc, hleast _ _ a ha⟩

end Dataflow.Solver

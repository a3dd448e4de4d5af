import Dataflow.Proofs.Solver.Schedules
import Mathlib.Data.List.Nodup
import Mathlib.Tactic.ByContra

/-!
# Solutions are fixed points

If a fair schedule stops, all equations are satisfied (`Turns.settles`).  The invariant of the loop
is that settled equations are satisfied.  It survives a change, because an equation that is
still settled afterwards does not notice the change; `Unread` says when that is so.

For sweeps nothing is asked of the equations (`satisfied_of_chaotic`): any change unsettles all of
them.  A worklist relies on the lists of names that equations say they read, and where two different
equations have one name, both must read it, or the one would not learn that the other took its
fact away (`satisfied_of_worklist`).
-/

namespace Dataflow.Solver

open Equation

variable {E V σ : Type} [Equation E V]

/-- Where a change by equation `i` does not matter to equation `j`, equation `j` gives the same fact
after the change, and its name has not lost that fact. -/
structure Unread (es : Array E) (reads : Fin es.size → Fin es.size → Prop) : Prop where
  eval_insert : ∀ {i j}, ¬ reads i j → ∀ (env : Environment V) (v : V),
    eval (nth es j) (env.insert (name (nth es i)) v) = eval (nth es j) env
  unique : ∀ {i j}, ¬ reads i j → name (nth es j) = name (nth es i) → nth es j = nth es i

theorem unread_true (es : Array E) : Unread es fun _ _ => True :=
  ⟨fun h => absurd trivial h, fun h => absurd trivial h⟩

/-- Two different equations with the same name both read that name. -/
def SharedNamesRead (es : Array E) : Prop :=
  ∀ e ∈ es, ∀ e' ∈ es, name e = name e' → e ≠ e' → name e ∈ deps e ∧ name e ∈ deps e'

theorem unread_deps {es : Array E} (hlocal : ∀ e ∈ es, Local e) (hshared : SharedNamesRead es) :
    Unread es fun i j => name (nth es i) ∈ deps (nth es j) where
  eval_insert hread env v := (hlocal _ (nth_mem es _)).eval_insert hread env v
  unique {i j} hread hname := by
    by_contra hne
    have hboth := hshared _ (nth_mem es i) _ (nth_mem es j) hname.symm fun h => hne h.symm
    exact hread hboth.2

/-- Equations with pairwise distinct names share none. -/
theorem sharedNamesRead_of_nodup {es : Array E} (h : (names es).Nodup) : SharedNamesRead es := by
  intro e he e' he' hname hne
  exact absurd (List.inj_on_of_nodup_map h (Array.mem_toList_iff.2 he)
    (Array.mem_toList_iff.2 he') hname) hne

/-! ### The invariant -/

variable {es : Array E} {S : Schedule es.size σ} {Valid : σ → Prop}
  {settled : σ → Fin es.size → Prop} {reads : Fin es.size → Fin es.size → Prop}

/-- The invariant of the loop: settled equations are satisfied. -/
structure Settles (Valid : σ → Prop) (settled : σ → Fin es.size → Prop)
    (p : Progress V σ es.size) : Prop where
  valid : Valid p.schedule
  bound : ∀ x ∈ names es, x ∈ p.env
  satisfied : ∀ j, settled p.schedule j → Satisfied (nth es j) p.env

variable [Domain V] [DecidableEq V]

theorem Turn.settles (hfair : S.Fair Valid settled reads) (hunread : Unread es reads)
    {p q : Progress V σ es.size} (hp : Settles Valid settled p) (h : Turn es S p q) :
    Settles Valid settled q := by
  obtain @⟨i, s, env, changed, hnext, hev⟩ := h
  have hbound : name (nth es i) ∈ p.env := hp.bound _ (name_mem_names (nth_mem es i))
  rcases evaluate_cases hbound hev with ⟨rfl, hsat, rfl⟩ | ⟨rfl, v, w, -, hw, -, rfl⟩
  · refine ⟨hfair.valid _ hp.valid hnext, hp.bound, fun j hj => ?_⟩
    rcases hfair.quiet hp.valid hnext hj with rfl | hj
    · exact hsat
    · exact hp.satisfied j hj
  · refine ⟨hfair.valid _ hp.valid hnext, fun x hx => ?_, fun j hj => ?_⟩
    · exact Std.ExtTreeMap.mem_insert.2 (.inr (hp.bound x hx))
    · obtain ⟨hread, hj⟩ := hfair.change hp.valid hnext hj
      have hself : j = i ∨ name (nth es j) = name (nth es i) → nth es j = nth es i := by
        rintro (rfl | hname)
        · rfl
        · exact hunread.unique hread hname
      by_cases hji : j = i ∨ name (nth es j) = name (nth es i)
      -- the equation just evaluated, or a copy of it
      · refine ⟨w, ?_, ?_⟩
        · rw [← hw, ← hself hji]
          exact hself hji ▸ hunread.eval_insert hread p.env w
        · show (p.env.insert (name (nth es i)) w)[name (nth es j)]? = some w
          rw [hself hji, Std.ExtTreeMap.getElem?_insert_self]
      -- an equation for another name
      · obtain ⟨hne, hname⟩ := not_or.1 hji
        obtain ⟨u, hu, hju⟩ := hp.satisfied j (hj.resolve_left hne)
        refine ⟨u, (hunread.eval_insert hread p.env w).trans hu, ?_⟩
        show (p.env.insert (name (nth es i)) w)[name (nth es j)]? = some u
        rw [Environment.getElem?_insert, if_neg hname, hju]

theorem Turns.settles (hfair : S.Fair Valid settled reads) (hunread : Unread es reads)
    {p q : Progress V σ es.size} (hp : Settles Valid settled p) (h : Turns es S p q) :
    Settles Valid settled q :=
  h.invariant hp fun _ _ hp ht => ht.settles hfair hunread hp

/-- **Where a fair schedule stops, all equations are satisfied.** -/
theorem satisfied_of_run (hfair : S.Fair Valid settled reads) (hunread : Unread es reads)
    {p : Progress V σ es.size} (hp : Settles Valid settled p) {budget : Nat}
    (h : (run es S budget p).2 = .ok ()) :
    ∀ e ∈ es, Satisfied e (run es S budget p).1.env := by
  intro e he
  obtain ⟨j, rfl⟩ := exists_nth he
  have hq := (turns_run budget p).settles hfair hunread hp
  exact hq.satisfied j (hfair.done hq.valid (next_eq_none_of_ok h))

omit [DecidableEq V] in
theorem bound_start (es : Array E) (env : Environment V) (s : σ) :
    ∀ x ∈ names es, x ∈ (start es env s).env :=
  fun _ hx => mem_seedAll.2 (.inl hx)

theorem satisfied_of_chaotic {env : Environment V} {options : Options} {solution : Solution V}
    (h : solve .chaotic es env options = .ok solution) :
    ∀ e ∈ es, Satisfied e solution.environment := by
  rw [solve_chaotic, map_eq_ok_iff] at h
  obtain ⟨_, hok, rfl⟩ := h
  refine satisfied_of_run (Sweep.fair es.size) (unread_true es)
    ⟨trivial, bound_start es env _, fun j hj => ?_⟩ hok
  exact absurd hj.2 (Nat.not_lt_zero _)

theorem satisfied_of_worklist (hlocal : ∀ e ∈ es, Local e) (hshared : SharedNamesRead es)
    {env : Environment V} {options : Options} {solution : Solution V}
    (h : solve .worklist es env options = .ok solution) :
    ∀ e ∈ es, Satisfied e solution.environment := by
  rw [solve_worklist, map_eq_ok_iff] at h
  obtain ⟨_, hok, rfl⟩ := h
  refine satisfied_of_run (Worklist.fair options.order es) (unread_deps hlocal hshared)
    ⟨Worklist.valid_full es.size, bound_start es env _, fun j hj => ?_⟩ hok
  exact absurd (List.mem_finRange j) hj

/-- **A solver's solution satisfies all equations.** -/
theorem satisfied_of_solve (hlocal : ∀ e ∈ es, Local e) (hshared : SharedNamesRead es)
    {strategy : Strategy} {env : Environment V} {options : Options} {solution : Solution V}
    (h : solve strategy es env options = .ok solution) :
    ∀ e ∈ es, Satisfied e solution.environment := by
  cases strategy with
  | chaotic => exact satisfied_of_chaotic h
  | worklist => exact satisfied_of_worklist hlocal hshared h

end Dataflow.Solver

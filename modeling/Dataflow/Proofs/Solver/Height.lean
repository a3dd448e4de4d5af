import Dataflow.Proofs.Solver.Budget
import Dataflow.Proofs.Solver.Least
import Mathlib.Algebra.BigOperators.Fin
import Mathlib.Combinatorics.Enumerative.DoubleCounting

/-!
# Budgets from the height of a domain

Along an ascending iteration a fact only ever rises, and in a domain of finite height it does so
only a few times.  `Height` says how often: each fact has room to rise, and rising takes some of it.
An environment with a fact for each equation then has room for one change after the other, and what
is left of it, with a price on every change, is a potential that pays for them
(`Confined.potential`).

For sweeps the price of a change is another sweep.  For a worklist it is the number of equations
that read the changed name.  Over all names that is no more than the number of names that the
equations list, which is what the same pairs of equations come to when they are counted from the
other end (`sum_readerCount_le`).  Both prices give a budget within which solvers succeed
(`Confined.succeedsWithin`).
-/

namespace Dataflow.Solver

open Equation

variable {E V : Type} [Equation E V]

/-- The attempt succeeds by sweeps if `sweeps` evaluations are allowed, and with a worklist, in
whatever order, if `queued` are. -/
def SucceedsWithin {α : Type} (attempt : Strategy → Options → Except Error α)
    (sweeps queued : Nat) : Prop :=
  ∀ options : Options,
    (sweeps ≤ options.maxEvaluations → ∃ a, attempt .chaotic options = .ok a) ∧
    (queued ≤ options.maxEvaluations → ∃ a, attempt .worklist options = .ok a)

/-! ### Counting readers -/

/-- The number of names that the equations of a system list as read, with repetitions. -/
def depCount (es : Array E) : Nat := (es.toList.map fun e => (deps e).length).sum

theorem name_nth_injective {es : Array E} (h : (names es).Nodup) :
    Function.Injective fun i => name (nth es i) := by
  intro i j hij
  have hi : i.val < (names es).length := by simp [names]
  have hj : j.val < (names es).length := by simp [names]
  have hget : (names es)[i.val] = (names es)[j.val] := by simpa [names] using hij
  exact Fin.ext (h.getElem_inj_iff.1 hget)

theorem readerCount_eq_card (es : Array E) (i : Fin es.size) :
    readerCount es i = (Finset.univ.filter fun j => name (nth es i) ∈ deps (nth es j)).card := by
  rw [readerCount, Readers.of_ofEquations,
    ← List.toFinset_card_of_nodup ((List.nodup_finRange es.size).filter _)]
  congr 1
  ext j
  simp

/-- **The readers of all names are no more than the names that are listed as read**, if no two
equations share a name. -/
theorem sum_readerCount_le {es : Array E} (h : (names es).Nodup) :
    ∑ i, readerCount es i ≤ depCount es := by
  have hlisted : ∀ j, (Finset.univ.filter fun i => name (nth es i) ∈ deps (nth es j)).card ≤
      (deps (nth es j)).length := by
    intro j
    refine le_trans ?_ (List.toFinset_card_le (deps (nth es j)))
    refine Finset.card_le_card_of_injOn (fun i => name (nth es i)) ?_
      (name_nth_injective h).injOn
    intro i hi
    simpa using hi
  calc ∑ i, readerCount es i
      = ∑ i, (Finset.univ.filter fun j => name (nth es i) ∈ deps (nth es j)).card :=
        Finset.sum_congr rfl fun i _ => readerCount_eq_card es i
    _ = ∑ j, (Finset.univ.filter fun i => name (nth es i) ∈ deps (nth es j)).card :=
        Finset.sum_card_bipartiteAbove_eq_sum_card_bipartiteBelow _
    _ ≤ ∑ j, (deps (nth es j)).length := Finset.sum_le_sum fun j _ => hlisted j
    _ = depCount es := Fin.sum_univ_fun_getElem es.toList fun e => (deps e).length

/-! ### Height -/

variable [Domain V]

/-- The facts of which `Q` holds rise at most `height` times, one above the other: a fact has
`room` to rise that often, and a larger fact has less. -/
structure Height (Q : V → Prop) (room : V → Nat) (height : Nat) : Prop where
  initial : Q Domain.initial
  room_le : ∀ {v}, Q v → room v ≤ height
  rise : ∀ {v w}, Q v → Q w → Domain.Le v w → v ≠ w → room w < room v

/-- The room that the facts of a system have left, with a price for each step of equation `i`. -/
def roomLeft (es : Array E) (room : V → Nat) (cost : Fin es.size → Nat) (env : Environment V) :
    Nat :=
  ∑ i, cost i * room (env[name (nth es i)]?.getD Domain.initial)

section Room

variable {es : Array E} {Q : V → Prop} {room : V → Nat} {height : Nat} {cost : Fin es.size → Nat}
  {env : Environment V}

theorem Height.roomLeft_le (hh : Height Q room height)
    (henv : ∀ (x : String) v, env[x]? = some v → Q v) :
    roomLeft es room cost env ≤ (∑ i, cost i) * height := by
  rw [Finset.sum_mul]
  refine Finset.sum_le_sum fun i _ => Nat.mul_le_mul_left _ (hh.room_le ?_)
  cases hv : env[name (nth es i)]? with
  | none => exact hh.initial
  | some v => exact henv _ v hv

/-- A fact that rises leaves less room, by the price of its equation. -/
theorem roomLeft_insert (hdistinct : (names es).Nodup) {i : Fin es.size} {v w : V}
    (hv : env[name (nth es i)]? = some v) (hroom : room w < room v) :
    roomLeft es room cost (env.insert (name (nth es i)) w) + cost i ≤
      roomLeft es room cost env := by
  have hi : cost i = ∑ j, if j = i then cost j else 0 := by simp
  unfold roomLeft
  rw [hi, ← Finset.sum_add_distrib]
  refine Finset.sum_le_sum fun j _ => ?_
  rw [Environment.getElem?_insert]
  by_cases hj : j = i
  · subst hj
    rw [if_pos rfl, if_pos rfl, hv, Option.getD_some, Option.getD_some, ← Nat.mul_succ]
    exact Nat.mul_le_mul_left _ hroom
  · rw [if_neg fun h => hj (name_nth_injective hdistinct h), if_neg hj, Nat.add_zero]

end Room

variable [LawfulDomain V]

/-- A system with a start from which `Q` holds of all facts, and no evaluation fails. -/
structure Confined (es : Array E) (env : Environment V) (Q : V → Prop) : Prop where
  wellPosed : WellPosed es env
  total : ∀ e ∈ es, Total e
  /-- What the equations read has an equation or is bound at the start. -/
  known : ∀ e ∈ es, ∀ x ∈ deps e, x ∈ names es ∨ x ∈ env
  facts : ∀ (x : String) v, env[x]? = some v → Q v
  keep : ∀ e ∈ es, ∀ (env' : Environment V) v, (∀ (x : String) w, env'[x]? = some w → Q w) →
    eval e env' = .ok v → Q v

namespace Confined

variable {es : Array E} {Q : V → Prop} {room : V → Nat} {height : Nat} {env : Environment V}

/-- What holds of the facts of an iteration: they ascend from the seeded start, within `Q`. -/
abbrev Rising (es : Array E) (env : Environment V) (Q : V → Prop) (env' : Environment V) : Prop :=
  Ascends es (seedAll es env) env' ∧ ∀ (x : String) v, env'[x]? = some v → Q v

theorem rising (hes : Confined es env Q) (hh : Height Q room height) :
    Rising es env Q (seedAll es env) := by
  refine ⟨hes.wellPosed.ascends, fun x v hv => ?_⟩
  rw [getElem?_seedAll] at hv
  split_ifs at hv
  · cases hx : env[x]? with
    | none =>
      rw [hx, Option.getD_none, Option.some.injEq] at hv
      exact hv ▸ hh.initial
    | some w =>
      rw [hx, Option.getD_some, Option.some.injEq] at hv
      exact hv ▸ hes.facts x w hx
  · exact hes.facts x v hv

/-- **The room that is left pays for the changes.** -/
theorem potential (hes : Confined es env Q) (hh : Height Q room height)
    (cost : Fin es.size → Nat) :
    Potential es (Rising es env Q) (roomLeft es room cost) cost where
  bound := by
    rintro env' ⟨hasc, -⟩ e he
    exact (hasc.above.mem_iff _).1 (mem_seedAll.2 (.inl (name_mem_names he)))
  total := by
    rintro env' ⟨hasc, -⟩ e he
    refine hes.total e he fun x hx => ?_
    exact (hasc.above.mem_iff x).1 (mem_seedAll.2 (hes.known e he x hx))
  keep := by
    rintro env' env'' ⟨hasc, hfacts⟩ hev
    have hbound : ∀ x ∈ names es, x ∈ seedAll es env := fun x hx => mem_seedAll.2 (.inl hx)
    exact ⟨hev.ascends hes.wellPosed.distinct hes.wellPosed.monotone hbound hasc,
      hev.facts (Q := fun _ => Q) hes.keep hfacts⟩
  pays := by
    rintro env' i v w ⟨hasc, hfacts⟩ hv hw hne
    have he := nth_mem es i
    have hle : Domain.Le v w := hasc.le_eval he (hes.wellPosed.monotone _ he) hv hw
    have hroom : room w < room v :=
      hh.rise (hfacts _ v hv) (hes.keep _ he env' w hfacts hw) hle hne
    exact roomLeft_insert hes.wellPosed.distinct hv hroom

variable [DecidableEq V] {options : Options}

/-- Sweeps end within one sweep for each step of each fact, and one more. -/
theorem chaotic_ok_of_height (hes : Confined es env Q) (hh : Height Q room height)
    (hbudget : es.size * (es.size * height + 1) ≤ options.maxEvaluations) :
    ∃ solution, solve .chaotic es env options = .ok solution := by
  have hstart := hes.rising hh
  have hroom : roomLeft es room (fun _ => es.size) (seedAll es env) ≤
      (∑ _i : Fin es.size, es.size) * height := hh.roomLeft_le hstart.2
  rw [Finset.sum_const, Finset.card_univ, Fintype.card_fin, smul_eq_mul, Nat.mul_assoc] at hroom
  have hpays : roomLeft es room (fun _ => es.size) (seedAll es env) + es.size ≤
      options.maxEvaluations := by
    rw [Nat.mul_succ] at hbudget
    omega
  obtain ⟨solution, hsolve, -⟩ :=
    chaotic_ok_of_budget (hes.potential hh fun _ => es.size) hstart hpays
  exact ⟨solution, hsolve⟩

/-- A worklist ends within one evaluation of each equation, and one for each name that is read and
each step of its fact. -/
theorem worklist_ok_of_height (hes : Confined es env Q) (hh : Height Q room height)
    (hbudget : es.size + height * depCount es ≤ options.maxEvaluations) :
    ∃ solution, solve .worklist es env options = .ok solution := by
  have hstart := hes.rising hh
  have hroom : roomLeft es room (readerCount es) (seedAll es env) ≤ height * depCount es := by
    refine (hh.roomLeft_le hstart.2).trans ?_
    rw [Nat.mul_comm]
    exact Nat.mul_le_mul_left height (sum_readerCount_le hes.wellPosed.distinct)
  have hpays : roomLeft es room (readerCount es) (seedAll es env) + es.size ≤
      options.maxEvaluations := by omega
  obtain ⟨solution, hsolve, -⟩ :=
    worklist_ok_of_budget (hes.potential hh (readerCount es)) hstart hpays
  exact ⟨solution, hsolve⟩

/-- **Solvers succeed within a budget from the height of the domain**, the number of equations and
the number of names that these read. -/
theorem succeedsWithin (hes : Confined es env Q) (hh : Height Q room height) {reads : Nat}
    (hreads : depCount es ≤ reads) :
    SucceedsWithin (fun strategy options => solve strategy es env options)
      (es.size * (es.size * height + 1)) (es.size + height * reads) := by
  intro options
  refine ⟨hes.chaotic_ok_of_height hh, fun hbudget => hes.worklist_ok_of_height hh ?_⟩
  exact (Nat.add_le_add_left (Nat.mul_le_mul_left height hreads) _).trans hbudget

end Confined

end Dataflow.Solver

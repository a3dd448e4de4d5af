import Dataflow.Constants.Propagation
import Dataflow.Definitions.Reaching
import Dataflow.Dominators.Equations
import Dataflow.Liveness.Equations
import Dataflow.PointsTo.Inclusion
import Dataflow.Proofs.Meet
import Dataflow.Proofs.Solver.Iteration

/-!
# What equations promise to solvers

A worklist trusts the list of names that an equation says it reads, and a least solution exists
because equations are monotone.  Here the equations of the analyses keep these promises: each of
them reads only the names it lists (`Equation.Local`), gives a fact where all of these are bound
(`Equation.Total`) and otherwise names the first that is not (`Equation.ReportsMissing`), and gives
no smaller fact from a larger environment (`Equation.Monotone`).
-/

namespace Dataflow

namespace Environment

variable {V : Type} {env env' : Environment V}

theorem lookup_congr {x : String} (h : env[x]? = env'[x]?) : env.lookup x = env'.lookup x := by
  rw [lookup, lookup, h]

theorem exists_lookup {x : String} (h : x ∈ env) : ∃ v, env.lookup x = .ok v := by
  obtain ⟨v, hv⟩ := mem_iff_exists.1 h
  exact ⟨v, lookup_eq_ok_iff.2 hv⟩

theorem Le.lookup [Domain V] {lower upper : Environment V} (h : lower.Le upper) {x : String}
    {v w : V} (hv : lower.lookup x = .ok v) (hw : upper.lookup x = .ok w) : Domain.Le v w := by
  obtain ⟨w', hw', hle⟩ := h.exists_upper (lookup_eq_ok_iff.1 hv)
  obtain rfl : w' = w := Option.some.inj (hw'.symm.trans (lookup_eq_ok_iff.1 hw))
  exact hle

theorem gatherInto_congr [Domain V] {names : List String} (h : ∀ x ∈ names, env[x]? = env'[x]?) :
    ∀ v : V, env.gatherInto v names = env'.gatherInto v names := by
  induction names with
  | nil => exact fun _ => rfl
  | cons x names ih =>
    intro v
    rw [gatherInto, gatherInto, lookup_congr (h x List.mem_cons_self)]
    cases env'.lookup x with
    | error e => rfl
    | ok w => exact ih (fun y hy => h y (List.mem_cons_of_mem x hy)) _

theorem gather_congr [Domain V] {names : List String} (h : ∀ x ∈ names, env[x]? = env'[x]?) :
    env.gather names = env'.gather names :=
  gatherInto_congr h Domain.initial

theorem exists_gather [Domain V] {names : List String} (h : ∀ x ∈ names, x ∈ env) :
    ∃ v : V, env.gather names = .ok v := by
  suffices ∀ u : V, ∃ v, env.gatherInto u names = .ok v from this Domain.initial
  induction names with
  | nil => exact fun u => ⟨u, rfl⟩
  | cons x names ih =>
    intro u
    obtain ⟨w, hw⟩ := exists_lookup (h x List.mem_cons_self)
    obtain ⟨v, hv⟩ := ih (fun y hy => h y (List.mem_cons_of_mem x hy)) (Domain.meet u w)
    exact ⟨v, by rw [gatherInto, hw]; exact hv⟩

/-- Let a property hold of a merged fact if it holds of one of the two.  Then the facts of a list
of names merge to one that has the property if one of them has it. -/
theorem gather_iff [Domain V] {Q : V → Prop} (hinitial : ¬ Q Domain.initial)
    (hmeet : ∀ v w, Q (Domain.meet v w) ↔ Q v ∨ Q w) {names : List String} {v : V}
    (h : env.gather names = .ok v) : Q v ↔ ∃ x ∈ names, ∃ w, env[x]? = some w ∧ Q w := by
  suffices ∀ {u : V}, env.gatherInto u names = .ok v →
      (Q v ↔ Q u ∨ ∃ x ∈ names, ∃ w, env[x]? = some w ∧ Q w) by
    rw [this h]
    exact or_iff_right hinitial
  clear h
  induction names with
  | nil =>
    intro u h
    cases h
    simp
  | cons y names ih =>
    intro u h
    rw [gatherInto] at h
    cases hy : env.lookup y with
    | error e => simp [hy] at h
    | ok w =>
      rw [hy] at h
      rw [ih h, hmeet, or_assoc]
      simp only [List.exists_mem_cons_iff, lookup_eq_ok_iff.1 hy, Option.some.injEq,
        exists_eq_left']

theorem mem_gather {α : Type} {cmp : α → α → Ordering} [Std.TransCmp cmp]
    [Domain (Std.ExtTreeSet α cmp)] [Domain.ByInclusion α cmp]
    {env : Environment (Std.ExtTreeSet α cmp)} {names : List String} {s : Std.ExtTreeSet α cmp}
    (h : env.gather names = .ok s) {a : α} :
    a ∈ s ↔ ∃ x ∈ names, ∃ t, env[x]? = some t ∧ a ∈ t :=
  gather_iff (Q := fun t => a ∈ t) Domain.notMem_initial (fun _ _ => Domain.mem_meet_iff) h

end Environment

/-! ### Constant propagation -/

theorem ConstantEquation.isLocal (e : ConstantEquation) : Equation.Local e := by
  intro env env' h
  show e.eval env = e.eval env'
  cases e with
  | binary op dst lhs rhs =>
    have hl : env.lookup lhs = env'.lookup lhs :=
      Environment.lookup_congr (h lhs List.mem_cons_self)
    have hr : env.lookup rhs = env'.lookup rhs :=
      Environment.lookup_congr (h rhs (List.mem_cons_of_mem _ List.mem_cons_self))
    simp only [eval, hl, hr]
  | move dst src => exact Environment.lookup_congr (h src (List.mem_singleton_self src))
  | read dst => rfl
  | phi dst args => exact Environment.gather_congr h

theorem ConstantEquation.eval_binary_eq_ok_iff {op : BinaryOp} {dst lhs rhs : String}
    {env : Environment Flat} {v : Flat} :
    (binary op dst lhs rhs).eval env = .ok v ↔
      ∃ l r, env.lookup lhs = .ok l ∧ env.lookup rhs = .ok r ∧ v = Flat.apply op l r := by
  simp only [eval]
  cases env.lookup lhs with
  | error e => simp
  | ok l =>
    cases env.lookup rhs with
    | error e => simp
    | ok r => simp [eq_comm]

theorem ConstantEquation.total (e : ConstantEquation) : Equation.Total e := by
  intro env h
  show ∃ v, e.eval env = .ok v
  cases e with
  | binary op dst lhs rhs =>
    obtain ⟨l, hl⟩ := Environment.exists_lookup (h lhs List.mem_cons_self)
    obtain ⟨r, hr⟩ := Environment.exists_lookup (h rhs (List.mem_cons_of_mem _ List.mem_cons_self))
    exact ⟨_, eval_binary_eq_ok_iff.2 ⟨l, r, hl, hr, rfl⟩⟩
  | move dst src => exact Environment.exists_lookup (h src (List.mem_singleton_self src))
  | read dst => exact ⟨.nac, rfl⟩
  | phi dst args => exact Environment.exists_gather h

/-- An operator takes larger facts to a larger fact. -/
theorem Flat.apply_le_apply (op : BinaryOp) {a b c d : Flat} (h : Domain.Le a b)
    (h' : Domain.Le c d) : Domain.Le (apply op a c) (apply op b d) := by
  rw [Flat.le_iff] at h h' ⊢
  rcases h with rfl | rfl | rfl
  -- without a first value there is no result, unless the second operand is not constant
  · rcases h' with rfl | rfl | rfl
    · exact .inl rfl
    · cases b <;> exact .inr (.inl rfl)
    · cases c with
      | nac => cases b <;> exact .inr (.inl rfl)
      | undef | constant => exact .inl rfl
  · exact .inr (.inl rfl)
  · rcases h' with rfl | rfl | rfl
    · cases a with
      | nac => exact .inr (.inl rfl)
      | undef | constant => exact .inl rfl
    · cases a <;> exact .inr (.inl rfl)
    · exact .inr (.inr rfl)

theorem ConstantEquation.monotone (e : ConstantEquation) : Equation.Monotone e := by
  intro lower upper v w hle hv hw
  change e.eval lower = .ok v at hv
  change e.eval upper = .ok w at hw
  cases e with
  | binary op dst lhs rhs =>
    obtain ⟨l, r, hl, hr, rfl⟩ := eval_binary_eq_ok_iff.1 hv
    obtain ⟨l', r', hl', hr', rfl⟩ := eval_binary_eq_ok_iff.1 hw
    exact Flat.apply_le_apply op (hle.lookup hl hl') (hle.lookup hr hr')
  | move dst src => exact hle.lookup hv hw
  | read dst =>
    cases hv
    cases hw
    exact Domain.Le.refl _
  | phi dst args => exact hle.gather hv hw

/-! ### Reaching definitions, dominators and liveness -/

theorem ReachingEquation.isLocal (e : ReachingEquation) : Equation.Local e := by
  intro env env' h
  show e.eval env = e.eval env'
  cases e with
  | after id name input written =>
    have hinput : env.lookup input = env'.lookup input :=
      Environment.lookup_congr (h input (List.mem_singleton_self input))
    simp only [eval, hinput]
  | same name input => exact Environment.lookup_congr (h input (List.mem_singleton_self input))
  | before name predecessors => exact Environment.gather_congr h

theorem ReachingEquation.total (e : ReachingEquation) : Equation.Total e := by
  intro env h
  show ∃ v, e.eval env = .ok v
  cases e with
  | after id name input written =>
    obtain ⟨s, hs⟩ := Environment.exists_lookup (h input (List.mem_singleton_self input))
    exact ⟨_, map_eq_ok_iff.2 ⟨s, hs, rfl⟩⟩
  | same name input => exact Environment.exists_lookup (h input (List.mem_singleton_self input))
  | before name predecessors => exact Environment.exists_gather h

theorem Reaching.mem_redefine {id : Nat} {s : DefinitionSet} {v : String} {d : Definition} :
    d ∈ ReachingEquation.redefine id s v ↔ d = ⟨v, id⟩ ∨ d ∈ s ∧ d.name ≠ v := by
  rw [ReachingEquation.redefine, Std.ExtTreeSet.mem_insert, DefinitionSet.mem_kill,
    Std.LawfulEqOrd.compare_eq_iff_eq, eq_comm]

theorem Reaching.foldl_redefine_le (id : Nat) (written : List String) {s t : DefinitionSet}
    (h : Domain.Le s t) : Domain.Le (written.foldl (ReachingEquation.redefine id) s)
      (written.foldl (ReachingEquation.redefine id) t) := by
  induction written generalizing s t with
  | nil => exact h
  | cons v written ih =>
    refine ih ?_
    rw [Domain.le_iff_forall_mem] at h ⊢
    simp only [mem_redefine]
    exact fun d hd => hd.imp_right fun ⟨hd, hv⟩ => ⟨h d hd, hv⟩

theorem ReachingEquation.monotone (e : ReachingEquation) : Equation.Monotone e := by
  intro lower upper v w hle hv hw
  change e.eval lower = .ok v at hv
  change e.eval upper = .ok w at hw
  cases e with
  | after id name input written =>
    obtain ⟨s, hs, rfl⟩ := map_eq_ok_iff.1 hv
    obtain ⟨t, ht, rfl⟩ := map_eq_ok_iff.1 hw
    exact Reaching.foldl_redefine_le id written (hle.lookup hs ht)
  | same name input => exact hle.lookup hv hw
  | before name predecessors => exact hle.gather hv hw

theorem DominatorEquation.isLocal (e : DominatorEquation) : Equation.Local e := by
  intro env env' h
  show e.eval env = e.eval env'
  have hdeps : env.gather e.deps = env'.gather e.deps := Environment.gather_congr h
  simp only [eval, hdeps]

theorem DominatorEquation.total (e : DominatorEquation) : Equation.Total e := by
  intro env h
  show ∃ v, e.eval env = .ok v
  obtain ⟨s, hs⟩ : ∃ s, env.gather e.deps = .ok s := Environment.exists_gather h
  unfold eval
  split_ifs
  · exact ⟨_, rfl⟩
  · exact ⟨_, map_eq_ok_iff.2 ⟨s, hs, rfl⟩⟩

theorem DominatorSet.insert_le_insert {s t : DominatorSet} (h : Domain.Le s t) (n : Nat) :
    Domain.Le (s.insert n) (t.insert n) := by
  cases s with
  | universal => exact universal_le _
  | only s =>
    cases t with
    | universal => exact absurd h (not_only_le_universal s)
    | only t =>
      refine only_le_only.2 fun d hd => ?_
      rw [Std.ExtTreeSet.mem_insert] at hd ⊢
      exact hd.imp_right (only_le_only.1 h d)

theorem DominatorEquation.monotone (e : DominatorEquation) : Equation.Monotone e := by
  intro lower upper v w hle hv hw
  change e.eval lower = .ok v at hv
  change e.eval upper = .ok w at hw
  unfold eval at hv hw
  split_ifs at hv hw
  · cases hv
    cases hw
    exact Domain.Le.refl _
  · obtain ⟨s, hs, rfl⟩ := map_eq_ok_iff.1 hv
    obtain ⟨t, ht, rfl⟩ := map_eq_ok_iff.1 hw
    exact DominatorSet.insert_le_insert (hle.gather hs ht) e.id

theorem LivenessEquation.isLocal (e : LivenessEquation) : Equation.Local e := by
  intro env env' h
  show e.eval env = e.eval env'
  cases e with
  | before name output uses definitions =>
    have houtput : env.lookup output = env'.lookup output :=
      Environment.lookup_congr (h output (List.mem_singleton_self output))
    simp only [eval, houtput]
  | after name successors => exact Environment.gather_congr h

theorem LivenessEquation.total (e : LivenessEquation) : Equation.Total e := by
  intro env h
  show ∃ v, e.eval env = .ok v
  cases e with
  | before name output uses definitions =>
    obtain ⟨s, hs⟩ := Environment.exists_lookup (h output (List.mem_singleton_self output))
    exact ⟨_, map_eq_ok_iff.2 ⟨s, hs, rfl⟩⟩
  | after name successors => exact Environment.exists_gather h

theorem Liveness.mem_foldl_insert {names : List String} {s : LocationSet} {x : String} :
    x ∈ names.foldl (fun s v => s.insert v) s ↔ x ∈ names ∨ x ∈ s := by
  induction names generalizing s with
  | nil => simp
  | cons v names ih =>
    simp only [List.foldl_cons, ih, Std.ExtTreeSet.mem_insert, List.mem_cons,
      Std.LawfulEqOrd.compare_eq_iff_eq, @eq_comm _ v x]
    tauto

theorem Liveness.mem_foldl_erase {names : List String} {s : LocationSet} {x : String} :
    x ∈ names.foldl (fun s v => s.erase v) s ↔ x ∈ s ∧ x ∉ names := by
  induction names generalizing s with
  | nil => simp
  | cons v names ih =>
    simp only [List.foldl_cons, ih, Std.ExtTreeSet.mem_erase, List.mem_cons, not_or,
      Std.LawfulEqOrd.compare_eq_iff_eq, @eq_comm _ v x, ne_eq]
    tauto

theorem Liveness.mem_transfer {uses definitions : List String} {live : LocationSet} {x : String} :
    x ∈ LivenessEquation.transfer uses definitions live ↔
      x ∈ uses ∨ x ∈ live ∧ x ∉ definitions := by
  rw [LivenessEquation.transfer, mem_foldl_insert, mem_foldl_erase]

theorem LivenessEquation.monotone (e : LivenessEquation) : Equation.Monotone e := by
  intro lower upper v w hle hv hw
  change e.eval lower = .ok v at hv
  change e.eval upper = .ok w at hw
  cases e with
  | before name output uses definitions =>
    obtain ⟨s, hs, rfl⟩ := map_eq_ok_iff.1 hv
    obtain ⟨t, ht, rfl⟩ := map_eq_ok_iff.1 hw
    have hst := Domain.le_iff_forall_mem.1 (hle.lookup hs ht)
    rw [Domain.le_iff_forall_mem]
    simp only [Liveness.mem_transfer]
    exact fun x hx => hx.imp_right fun ⟨hx, hdef⟩ => ⟨hst x hx, hdef⟩
  | after name successors => exact hle.gather hv hw

/-! ### Inclusions -/

namespace Inclusion

variable {e : Inclusion} {env : Environment LocationSet}

/-- The fact of an inclusion: both sets together. -/
theorem eval_eq_ok_iff {v : LocationSet} :
    eval e env = .ok v ↔ ∃ d s, env[e.dst]? = some d ∧ env[e.src]? = some s ∧ v = d ∪ s := by
  unfold eval Environment.lookup
  cases env[e.dst]? with
  | none => simp
  | some d =>
    cases env[e.src]? with
    | none => simp
    | some s => simp [Domain.extend, eq_comm]

theorem eval_eq_ok (hdst : e.dst ∈ env) (hsrc : e.src ∈ env) : ∃ v, eval e env = .ok v := by
  obtain ⟨d, hd⟩ := Environment.mem_iff_exists.1 hdst
  obtain ⟨s, hs⟩ := Environment.mem_iff_exists.1 hsrc
  exact ⟨d ∪ s, eval_eq_ok_iff.2 ⟨d, s, hd, hs, rfl⟩⟩

theorem isLocal (e : Inclusion) : Equation.Local e := by
  intro env env' h
  show e.eval env = e.eval env'
  have hd : env.lookup e.dst = env'.lookup e.dst :=
    Environment.lookup_congr (h e.dst List.mem_cons_self)
  have hs : env.lookup e.src = env'.lookup e.src :=
    Environment.lookup_congr (h e.src (List.mem_cons_of_mem _ List.mem_cons_self))
  simp only [eval, hd, hs]

theorem monotone (e : Inclusion) : Equation.Monotone e := by
  intro lower upper v w hle hv hw
  obtain ⟨d, s, hd, hs, rfl⟩ := eval_eq_ok_iff.1 hv
  obtain ⟨d', s', hd', hs', rfl⟩ := eval_eq_ok_iff.1 hw
  obtain ⟨d₁, hd₁, hdd⟩ := hle.exists_upper hd
  obtain ⟨s₁, hs₁, hss⟩ := hle.exists_upper hs
  obtain rfl : d₁ = d' := Option.some.inj (hd₁.symm.trans hd')
  obtain rfl : s₁ = s' := Option.some.inj (hs₁.symm.trans hs')
  exact hdd.meet hss

/-- An inclusion is satisfied where it holds. -/
theorem satisfied_iff : Equation.Satisfied e env ↔
    ∃ d s, env[e.dst]? = some d ∧ env[e.src]? = some s ∧ ∀ t ∈ s, t ∈ d := by
  constructor
  · rintro ⟨v, hv, hdst⟩
    obtain ⟨d, s, hd, hs, rfl⟩ := eval_eq_ok_iff.1 hv
    refine ⟨d, s, hd, hs, fun t ht => ?_⟩
    have hunion : d = d ∪ s := Option.some.inj (hd.symm.trans hdst)
    rw [hunion]
    exact Std.ExtTreeSet.mem_union_iff.2 (.inr ht)
  · rintro ⟨d, s, hd, hs, hsub⟩
    refine ⟨d ∪ s, eval_eq_ok_iff.2 ⟨d, s, hd, hs, rfl⟩, hd.trans (congrArg some ?_)⟩
    refine Std.ExtTreeSet.ext_mem fun t => ?_
    rw [Std.ExtTreeSet.mem_union_iff]
    constructor
    · exact .inl
    · rintro (ht | ht)
      · exact ht
      · exact hsub t ht

end Inclusion

/-! ### Missing names -/

namespace Environment

variable {V : Type} {env : Environment V}

/-- The error is about the first of `names` that is not bound. -/
def FirstMissing (env : Environment V) (names : List String) (err : Error) : Prop :=
  ∃ x, names.find? (fun x => !env.contains x) = some x ∧ err = .unbound x

theorem FirstMissing.of_lookup {x : String} {err : Error} (h : env.lookup x = .error err)
    (names : List String) : env.FirstMissing (x :: names) err := by
  obtain ⟨hnone, rfl⟩ := lookup_eq_error_iff.1 h
  have hnot : env.contains x = false := by
    rw [Std.ExtTreeMap.contains_eq_isSome_getElem?, hnone, Option.isSome_none]
  exact ⟨x, by simp [hnot], rfl⟩

theorem FirstMissing.cons {names : List String} {err : Error} (h : env.FirstMissing names err)
    {x : String} {v : V} (hx : env.lookup x = .ok v) : env.FirstMissing (x :: names) err := by
  obtain ⟨y, hy, herr⟩ := h
  have hbound : env.contains x = true :=
    Std.ExtTreeMap.contains_iff_mem.2 (mem_iff_exists.2 ⟨v, lookup_eq_ok_iff.1 hx⟩)
  exact ⟨y, by simp [hbound, hy], herr⟩

theorem FirstMissing.of_gather [Domain V] {names : List String} {err : Error}
    (h : env.gather names = .error err) : env.FirstMissing names err := by
  suffices ∀ v : V, env.gatherInto v names = .error err → env.FirstMissing names err from this _ h
  clear h
  induction names with
  | nil =>
    intro v h
    cases h
  | cons x names ih =>
    intro v h
    rw [gatherInto] at h
    cases hx : env.lookup x with
    | error e =>
      rw [hx] at h
      cases h
      exact .of_lookup hx names
    | ok w =>
      rw [hx] at h
      exact (ih _ h).cons hx

end Environment

open Environment (FirstMissing)

/-- The equation fails only for want of a name that it reads, and reports the first such name. -/
def Equation.ReportsMissing {E V : Type} [Equation E V] (e : E) : Prop :=
  ∀ ⦃env : Environment V⦄ ⦃err : Error⦄, eval e env = .error err →
    FirstMissing env (deps e) err

theorem ConstantEquation.reportsMissing (e : ConstantEquation) : Equation.ReportsMissing e := by
  intro env err h
  change e.eval env = .error err at h
  cases e with
  | binary op dst lhs rhs =>
    simp only [eval] at h
    cases hl : env.lookup lhs with
    | error e =>
      rw [hl] at h
      cases h
      exact .of_lookup hl [rhs]
    | ok l =>
      cases hr : env.lookup rhs with
      | error e =>
        rw [hl, hr] at h
        cases h
        exact (FirstMissing.of_lookup hr []).cons hl
      | ok r => simp [hl, hr] at h
  | move dst src => exact .of_lookup h []
  | read dst => cases h
  | phi dst args => exact .of_gather h

theorem ReachingEquation.reportsMissing (e : ReachingEquation) : Equation.ReportsMissing e := by
  intro env err h
  change e.eval env = .error err at h
  cases e with
  | after id name input written => exact .of_lookup (map_eq_error_iff.1 h) []
  | same name input => exact .of_lookup h []
  | before name predecessors => exact .of_gather h

theorem DominatorEquation.reportsMissing (e : DominatorEquation) : Equation.ReportsMissing e := by
  intro env err h
  change e.eval env = .error err at h
  unfold eval at h
  split_ifs at h
  exact .of_gather (map_eq_error_iff.1 h)

theorem LivenessEquation.reportsMissing (e : LivenessEquation) : Equation.ReportsMissing e := by
  intro env err h
  change e.eval env = .error err at h
  cases e with
  | before name output uses definitions => exact .of_lookup (map_eq_error_iff.1 h) []
  | after name successors => exact .of_gather h

theorem Inclusion.reportsMissing (e : Inclusion) : Equation.ReportsMissing e := by
  intro env err h
  change e.eval env = .error err at h
  unfold eval at h
  cases hd : env.lookup e.dst with
  | error e' =>
    rw [hd] at h
    cases h
    exact .of_lookup hd [e.src]
  | ok d =>
    cases hs : env.lookup e.src with
    | error e' =>
      rw [hd, hs] at h
      cases h
      exact (FirstMissing.of_lookup hs []).cons hd
    | ok s => simp [hd, hs] at h

end Dataflow

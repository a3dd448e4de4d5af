import Dataflow.Proofs.Contract
import Mathlib.Tactic.ByContra

/-!
# Dependable equations

Solvers look at an equation only through the names it lists.  It is *dependable* if that is enough
to know what it does (`Equation.Dependable`): the facts of these names decide its outcome, it fails
exactly if one of them has no fact, and it takes larger facts to a larger fact.  What other names
are bound to, or whether they are bound at all, does not matter.  In particular the two environments
that monotonicity compares need not bind the same names.

All equations of all analyses are dependable (`equations_dependable`).  That no equation gets by
without one of its names is seen kind by kind (`Equation.Strict`).  The rest is known of whole
environments, and is carried over by forgetting all names but those that the equation lists.
-/

namespace Dataflow

namespace Environment

variable {V : Type} {env : Environment V}

theorem mem_of_lookup {x : String} {v : V} (h : env.lookup x = .ok v) : x ∈ env :=
  mem_iff_exists.2 ⟨v, lookup_eq_ok_iff.1 h⟩

theorem FirstMissing.exists_notMem {names : List String} {err : Error}
    (h : env.FirstMissing names err) : ∃ x ∈ names, x ∉ env := by
  obtain ⟨x, hfind, -⟩ := h
  refine ⟨x, List.mem_of_find?_eq_some hfind, ?_⟩
  have hx := List.find?_some hfind
  rwa [Bool.not_eq_true', ← Bool.not_eq_true, Std.ExtTreeMap.contains_iff_mem] at hx

/-- The part of an environment that is about `names`. -/
def restrict (names : List String) (env : Environment V) : Environment V :=
  env.filter fun x _ => names.contains x

theorem getElem?_restrict (names : List String) (env : Environment V) (x : String) :
    (env.restrict names)[x]? = if x ∈ names then env[x]? else none := by
  rw [restrict, Std.ExtTreeMap.getElem?_filter']
  by_cases hx : x ∈ names
  · cases env[x]? <;> simp [hx]
  · simp [hx]

variable [Domain V]

/-- Facts are gathered only where all names have one. -/
theorem mem_of_gather {names : List String} {v : V} (h : env.gather names = .ok v) :
    ∀ x ∈ names, x ∈ env := by
  suffices ∀ u : V, env.gatherInto u names = .ok v → ∀ x ∈ names, x ∈ env from this _ h
  clear h
  induction names with
  | nil => simp
  | cons x names ih =>
    intro u h
    rw [gatherInto] at h
    cases hx : env.lookup x with
    | error e => simp [hx] at h
    | ok w =>
      rw [hx] at h
      exact List.forall_mem_cons.2 ⟨mem_of_lookup hx, ih _ h⟩

/-- Both environments bind all of `names`, the second one to facts that are not smaller. -/
def LeOn (names : List String) (lower upper : Environment V) : Prop :=
  ∀ x ∈ names, ∃ a b, lower[x]? = some a ∧ upper[x]? = some b ∧ Domain.Le a b

namespace LeOn

variable {names : List String} {lower upper : Environment V}

theorem mem_lower (h : LeOn names lower upper) : ∀ x ∈ names, x ∈ lower := by
  intro x hx
  obtain ⟨a, -, ha, -⟩ := h x hx
  exact mem_iff_exists.2 ⟨a, ha⟩

theorem mem_upper (h : LeOn names lower upper) : ∀ x ∈ names, x ∈ upper := by
  intro x hx
  obtain ⟨-, b, -, hb, -⟩ := h x hx
  exact mem_iff_exists.2 ⟨b, hb⟩

theorem restrict (h : LeOn names lower upper) :
    (lower.restrict names).Le (upper.restrict names) := by
  intro x
  rw [getElem?_restrict, getElem?_restrict]
  split_ifs with hx
  · obtain ⟨a, b, ha, hb, hab⟩ := h x hx
    rw [ha, hb]
    exact .some hab
  · exact .none

end LeOn

end Environment

namespace Equation

open Environment (LeOn)

variable {E V : Type} [Equation E V]

/-- The equation gives a fact only where all names that it lists are bound. -/
def Strict (e : E) : Prop :=
  ∀ ⦃env : Environment V⦄ ⦃v : V⦄, eval e env = .ok v → ∀ x ∈ deps e, x ∈ env

theorem Local.eval_restrict {e : E} (he : Local e) (env : Environment V) :
    eval e (env.restrict (deps e)) = eval e env :=
  he fun x hx => by rw [Environment.getElem?_restrict, if_pos hx]

variable [Domain V]

/-- What solvers may rely on. -/
structure Dependable (e : E) : Prop where
  /-- The bindings and absences of the names that it lists decide what the equation gives. -/
  isLocal : Local e
  /-- The equation fails if and only if a name that it lists is not bound. -/
  fails_iff : ∀ env : Environment V, (∃ err, eval e env = .error err) ↔ ∃ x ∈ deps e, x ∉ env
  /-- The error is that the first name without a binding is not bound. -/
  reportsMissing : ReportsMissing e
  /-- From larger facts of the names that it lists the equation gives a larger fact. -/
  eval_le : ∀ lower upper : Environment V, LeOn (deps e) lower upper →
    ∃ v w, eval e lower = .ok v ∧ eval e upper = .ok w ∧ Domain.Le v w

theorem Dependable.of_monotone {e : E} (hlocal : Local e) (htotal : Total e) (hstrict : Strict e)
    (hreports : ReportsMissing e) (hmono : Monotone e) : Dependable e where
  isLocal := hlocal
  fails_iff env := by
    constructor
    · rintro ⟨err, herr⟩
      exact (hreports herr).exists_notMem
    · rintro ⟨x, hx, hmissing⟩
      cases hev : eval e env with
      | error err => exact ⟨err, rfl⟩
      | ok v => exact absurd (hstrict hev x hx) hmissing
  reportsMissing := hreports
  eval_le lower upper hle := by
    obtain ⟨v, hv⟩ := htotal hle.mem_lower
    obtain ⟨w, hw⟩ := htotal hle.mem_upper
    refine ⟨v, w, hv, hw, ?_⟩
    rw [← hlocal.eval_restrict] at hv hw
    exact hmono hle.restrict hv hw

theorem Dependable.total {e : E} (he : Dependable e) : Total e := by
  intro env hbound
  cases hev : eval e env with
  | ok v => exact ⟨v, rfl⟩
  | error err =>
    obtain ⟨x, hx, hmissing⟩ := (he.fails_iff env).1 ⟨err, hev⟩
    exact absurd (hbound x hx) hmissing

theorem Dependable.strict {e : E} (he : Dependable e) : Strict e := by
  intro env v hv x hx
  by_contra hmissing
  obtain ⟨err, herr⟩ := (he.fails_iff env).2 ⟨x, hx, hmissing⟩
  rw [hv] at herr
  cases herr

end Equation

/-! ### The equations of the analyses -/

open Equation (Dependable)

theorem ConstantEquation.strict (e : ConstantEquation) : Equation.Strict e := by
  intro env v h
  change e.eval env = .ok v at h
  show ∀ x ∈ e.deps, x ∈ env
  cases e with
  | binary op dst lhs rhs =>
    obtain ⟨l, r, hl, hr, -⟩ := eval_binary_eq_ok_iff.1 h
    simp [deps, Environment.mem_of_lookup hl, Environment.mem_of_lookup hr]
  | move dst src => simpa [deps] using Environment.mem_of_lookup h
  | read dst => simp [deps]
  | phi dst args => exact Environment.mem_of_gather h

theorem ReachingEquation.strict (e : ReachingEquation) : Equation.Strict e := by
  intro env v h
  change e.eval env = .ok v at h
  show ∀ x ∈ e.deps, x ∈ env
  cases e with
  | after id name input written =>
    obtain ⟨s, hs, -⟩ := map_eq_ok_iff.1 h
    simpa [deps] using Environment.mem_of_lookup hs
  | same name input => simpa [deps] using Environment.mem_of_lookup h
  | before name predecessors => exact Environment.mem_of_gather h

theorem DominatorEquation.strict (e : DominatorEquation) : Equation.Strict e := by
  intro env v h
  change e.eval env = .ok v at h
  show ∀ x ∈ e.deps, x ∈ env
  unfold eval at h
  split_ifs at h with hroot
  · -- a root lists no names
    have hnil : e.predecessors = [] := List.isEmpty_iff.1 hroot
    simp [deps, hnil]
  · obtain ⟨s, hs, -⟩ := map_eq_ok_iff.1 h
    exact Environment.mem_of_gather hs

theorem LivenessEquation.strict (e : LivenessEquation) : Equation.Strict e := by
  intro env v h
  change e.eval env = .ok v at h
  show ∀ x ∈ e.deps, x ∈ env
  cases e with
  | before name output uses definitions =>
    obtain ⟨s, hs, -⟩ := map_eq_ok_iff.1 h
    simpa [deps] using Environment.mem_of_lookup hs
  | after name successors => exact Environment.mem_of_gather h

theorem Inclusion.strict (e : Inclusion) : Equation.Strict e := by
  intro env v h
  obtain ⟨d, s, hd, hs, -⟩ := eval_eq_ok_iff.1 h
  have hdst : e.dst ∈ env := Environment.mem_iff_exists.2 ⟨d, hd⟩
  have hsrc : e.src ∈ env := Environment.mem_iff_exists.2 ⟨s, hs⟩
  simp [Equation.deps, hdst, hsrc]

theorem Inclusion.total (e : Inclusion) : Equation.Total e := by
  intro env h
  have hsrc : e.src ∈ env := h e.src (List.mem_cons_of_mem _ List.mem_cons_self)
  exact eval_eq_ok (h e.dst List.mem_cons_self) hsrc

theorem ConstantEquation.dependable (e : ConstantEquation) : Dependable e :=
  .of_monotone e.isLocal e.total e.strict e.reportsMissing e.monotone

theorem ReachingEquation.dependable (e : ReachingEquation) : Dependable e :=
  .of_monotone e.isLocal e.total e.strict e.reportsMissing e.monotone

theorem DominatorEquation.dependable (e : DominatorEquation) : Dependable e :=
  .of_monotone e.isLocal e.total e.strict e.reportsMissing e.monotone

theorem LivenessEquation.dependable (e : LivenessEquation) : Dependable e :=
  .of_monotone e.isLocal e.total e.strict e.reportsMissing e.monotone

theorem Inclusion.dependable (e : Inclusion) : Dependable e :=
  .of_monotone e.isLocal e.total e.strict e.reportsMissing e.monotone

/-- **Every equation is dependable**, whichever analysis makes it and from whatever program. -/
theorem equations_dependable :
    (∀ e : ConstantEquation, Dependable e) ∧ (∀ e : ReachingEquation, Dependable e) ∧
    (∀ e : DominatorEquation, Dependable e) ∧ (∀ e : LivenessEquation, Dependable e) ∧
    ∀ e : Inclusion, Dependable e :=
  ⟨ConstantEquation.dependable, ReachingEquation.dependable, DominatorEquation.dependable,
    LivenessEquation.dependable, Inclusion.dependable⟩

end Dataflow

import Dataflow.Constants.Flat
import Dataflow.Environment
import Dataflow.Proofs.Sets
import Mathlib.Tactic.SplitIfs

/-!
# The order of facts and of environments

A domain only has operations.  `LawfulDomain` adds what solvers rely on: its comparison is a partial
order that agrees with equality, and the initial fact is the least one.  Sets and flat constants
are lawful.

Environments that bind the same names are ordered name by name (`Environment.Le`).  An environment
is changed by binding one name at a time, so the order comes with one lemma for each side that such
a change can happen on (`Environment.Le.insert_left`, `Environment.Le.insert_right`).
-/

namespace Dataflow

/-- A domain whose comparison is a partial order with the initial fact at the bottom. -/
class LawfulDomain (V : Type) [Domain V] : Prop where
  compare?_eq_iff : ∀ {a b : V}, Domain.compare? a b = some .eq ↔ a = b
  compare?_lt_iff : ∀ {a b : V}, Domain.compare? a b = some .lt ↔ Domain.compare? b a = some .gt
  le_trans : ∀ {a b c : V}, Domain.Le a b → Domain.Le b c → Domain.Le a c
  initial_le : ∀ a : V, Domain.Le Domain.initial a

namespace Domain

section Facts

variable {V : Type} [Domain V] [LawfulDomain V]

theorem Le.refl (a : V) : Le a a := .inr (LawfulDomain.compare?_eq_iff.2 rfl)

theorem Le.trans {a b c : V} (h : Le a b) (h' : Le b c) : Le a c := LawfulDomain.le_trans h h'

theorem Le.antisymm {a b : V} (h : Le a b) (h' : Le b a) : a = b := by
  rcases h with h | h
  · have hgt := LawfulDomain.compare?_lt_iff.1 h
    rcases h' with h' | h' <;> simp [hgt] at h'
  · exact LawfulDomain.compare?_eq_iff.1 h

end Facts

/-! ### Lawful domains -/

/-- Inclusion is a lawful order of sets. -/
instance {α : Type} {cmp : α → α → Ordering} [Std.TransCmp cmp] [Std.LawfulEqCmp cmp]
    [Domain (Std.ExtTreeSet α cmp)] [ByInclusion α cmp] :
    LawfulDomain (Std.ExtTreeSet α cmp) where
  compare?_eq_iff {s t} := by
    rw [ByInclusion.compare?_eq]
    exact ofBelowAbove_eq_iff
  compare?_lt_iff {s t} := by
    rw [ByInclusion.compare?_eq, ByInclusion.compare?_eq]
    exact ofBelowAbove_lt_iff
  le_trans h h' := by
    rw [le_iff_forall_mem] at h h' ⊢
    exact fun a ha => h' a (h a ha)
  initial_le s := by
    rw [le_iff_forall_mem]
    exact fun a ha => absurd ha notMem_initial

/-- The flat order of constants is lawful. -/
instance : LawfulDomain Flat where
  compare?_eq_iff {a b} := by
    show Flat.compare? a b = some .eq ↔ a = b
    cases a <;> cases b <;> simp [Flat.compare?]
  compare?_lt_iff {a b} := by
    show Flat.compare? a b = some .lt ↔ Flat.compare? b a = some .gt
    cases a <;> cases b <;> simp [Flat.compare?]
  le_trans {a b c} := by
    show (Flat.compare? a b = _ ∨ Flat.compare? a b = _) →
      (Flat.compare? b c = _ ∨ Flat.compare? b c = _) →
      Flat.compare? a c = _ ∨ Flat.compare? a c = _
    cases a <;> cases b <;> cases c <;> simp +contextual [Flat.compare?]
  initial_le a := by
    show Flat.compare? .undef a = _ ∨ Flat.compare? .undef a = _
    cases a <;> simp [Flat.compare?]

end Domain

/-! ### Environments -/

namespace Environment

variable {V : Type}

theorem mem_iff_exists {env : Environment V} {x : String} : x ∈ env ↔ ∃ v, env[x]? = some v := by
  rw [Std.ExtTreeMap.mem_iff_isSome_getElem?, Option.isSome_iff_exists]

theorem getElem?_insert (env : Environment V) (name x : String) (v : V) :
    (env.insert name v)[x]? = if x = name then some v else env[x]? := by
  rw [Std.ExtTreeMap.getElem?_insert]
  simp only [Std.LawfulEqOrd.compare_eq_iff_eq, @eq_comm _ x name]

/-- Binding a name to the fact that it is bound to changes nothing. -/
theorem insert_eq_self {env : Environment V} {name : String} {v : V} (h : env[name]? = some v) :
    env.insert name v = env := by
  refine Std.ExtTreeMap.ext_getElem? fun x => ?_
  rw [getElem?_insert]
  split_ifs with hx
  · rw [hx, h]
  · rfl

theorem getElem?_seed (env : Environment V) (name x : String) (v : V) :
    (env.seed name v)[x]? = if x = name then some (env[x]?.getD v) else env[x]? := by
  rw [seed, Std.ExtTreeMap.getElem?_insertIfNew]
  simp only [Std.LawfulEqOrd.compare_eq_iff_eq, Std.ExtTreeMap.mem_iff_isSome_getElem?]
  by_cases hx : x = name
  · subst hx
    cases env[x]? <;> simp
  · simp [hx, Ne.symm hx]

/-- Seeding a list of names binds all of them, and keeps what is bound. -/
theorem getElem?_foldl_seed (names : List String) (v : V) (env : Environment V) (x : String) :
    (names.foldl (fun env y => env.seed y v) env)[x]? =
      if x ∈ names then some (env[x]?.getD v) else env[x]? := by
  induction names generalizing env with
  | nil => simp
  | cons y names ih =>
    rw [List.foldl_cons, ih, getElem?_seed]
    by_cases hx : x = y
    · simp [hx]
    · simp [hx]

variable [Domain V]

/-- The environments bind the same names, and what the first binds a name to is below what the
second binds it to. -/
def Le (lower upper : Environment V) : Prop :=
  ∀ x : String, Option.Rel Domain.Le lower[x]? upper[x]?

namespace Le

variable {lower upper : Environment V}

theorem exists_upper (h : lower.Le upper) {x : String} {a : V} (ha : lower[x]? = some a) :
    ∃ b, upper[x]? = some b ∧ Domain.Le a b := by
  have hx := h x
  rw [ha] at hx
  cases hb : upper[x]? with
  | none => simp [hb] at hx
  | some b => exact ⟨b, rfl, by simpa [hb] using hx⟩

theorem exists_lower (h : lower.Le upper) {x : String} {b : V} (hb : upper[x]? = some b) :
    ∃ a, lower[x]? = some a ∧ Domain.Le a b := by
  have hx := h x
  rw [hb] at hx
  cases ha : lower[x]? with
  | none => simp [ha] at hx
  | some a => exact ⟨a, rfl, by simpa [ha] using hx⟩

theorem getElem?_eq_none (h : lower.Le upper) {x : String} (hb : upper[x]? = none) :
    lower[x]? = none := by
  have hx := h x
  rw [hb] at hx
  cases ha : lower[x]? with
  | none => rfl
  | some a => simp [ha] at hx

/-- Ordered environments bind the same names. -/
theorem mem_iff (h : lower.Le upper) (x : String) : x ∈ lower ↔ x ∈ upper := by
  rw [mem_iff_exists, mem_iff_exists]
  constructor
  · rintro ⟨a, ha⟩
    obtain ⟨b, hb, -⟩ := h.exists_upper ha
    exact ⟨b, hb⟩
  · rintro ⟨b, hb⟩
    obtain ⟨a, ha, -⟩ := h.exists_lower hb
    exact ⟨a, ha⟩

/-- Raising the larger of two environments at one name. -/
theorem insert_right [LawfulDomain V] (h : lower.Le upper) {name : String} {a b : V}
    (hb : upper[name]? = some b) (hab : Domain.Le b a) : lower.Le (upper.insert name a) := by
  intro x
  rw [getElem?_insert]
  split_ifs with hx
  · subst hx
    obtain ⟨c, hc, hcb⟩ := h.exists_lower hb
    rw [hc]
    exact .some (hcb.trans hab)
  · exact h x

/-- Changing the smaller of two environments at one name, to something still below. -/
theorem insert_left (h : lower.Le upper) {name : String} {a b : V} (hb : upper[name]? = some b)
    (hab : Domain.Le a b) : Le (lower.insert name a) upper := by
  intro x
  rw [getElem?_insert]
  split_ifs with hx
  · subst hx
    rw [hb]
    exact .some hab
  · exact h x

variable [LawfulDomain V]

theorem refl (env : Environment V) : env.Le env := by
  intro x
  cases env[x]? with
  | none => exact .none
  | some a => exact .some (Domain.Le.refl a)

theorem trans {middle : Environment V} (h : lower.Le middle) (h' : middle.Le upper) :
    lower.Le upper := by
  intro x
  cases hb : middle[x]? with
  | none =>
    have hx := h' x
    rw [hb] at hx
    rwa [h.getElem?_eq_none hb]
  | some b =>
    obtain ⟨a, ha, hab⟩ := h.exists_lower hb
    obtain ⟨c, hc, hbc⟩ := h'.exists_upper hb
    rw [ha, hc]
    exact .some (hab.trans hbc)

theorem antisymm (h : lower.Le upper) (h' : upper.Le lower) : lower = upper := by
  refine Std.ExtTreeMap.ext_getElem? fun x => ?_
  cases ha : lower[x]? with
  | none =>
    have hx := h x
    rw [ha] at hx
    cases hb : upper[x]? with
    | none => rfl
    | some b => simp [hb] at hx
  | some a =>
    obtain ⟨b, hb, hab⟩ := h.exists_upper ha
    obtain ⟨c, hc, hbc⟩ := h'.exists_upper hb
    rw [ha, Option.some.injEq] at hc
    rw [hb, hab.antisymm (hc ▸ hbc)]

end Le

end Environment

end Dataflow

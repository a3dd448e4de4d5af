import Dataflow.Dominators.Set
import Dataflow.Equation
import Dataflow.Proofs.Order

/-!
# Merging facts

Merging two facts gives the least fact above both (`LawfulMeet`), in each of the domains: of sets it
is the union, of constants what both can be, and of dominators the intersection, since there a
smaller set comes later.  So larger facts merge to larger facts (`Domain.Le.meet`), and what is
gathered from a list of names is above the facts of all of them (`Environment.le_gather`) and grows
with the environment (`Environment.Le.gather`).
-/

namespace Dataflow

/-- A lawful domain in which merging gives the least fact above both. -/
class LawfulMeet (V : Type) [Domain V] : Prop extends LawfulDomain V where
  le_meet_left : ∀ a b : V, Domain.Le a (Domain.meet a b)
  le_meet_right : ∀ a b : V, Domain.Le b (Domain.meet a b)
  meet_le : ∀ {a b c : V}, Domain.Le a c → Domain.Le b c → Domain.Le (Domain.meet a b) c

/-! ### Sets -/

instance {α : Type} {cmp : α → α → Ordering} [Std.TransCmp cmp] [Std.LawfulEqCmp cmp]
    [Domain (Std.ExtTreeSet α cmp)] [Domain.ByInclusion α cmp] :
    LawfulMeet (Std.ExtTreeSet α cmp) where
  le_meet_left s t := Domain.le_iff_forall_mem.2 fun _ h => Domain.mem_meet_iff.2 (.inl h)
  le_meet_right s t := Domain.le_iff_forall_mem.2 fun _ h => Domain.mem_meet_iff.2 (.inr h)
  meet_le h h' := by
    rw [Domain.le_iff_forall_mem] at h h' ⊢
    intro a ha
    exact (Domain.mem_meet_iff.1 ha).elim (h a) (h' a)

/-! ### Constants -/

/-- The flat order: nothing is above two facts but the last one. -/
theorem Flat.le_iff {a b : Flat} : Domain.Le a b ↔ a = undef ∨ b = nac ∨ a = b := by
  show compare? a b = _ ∨ compare? a b = _ ↔ _
  cases a <;> cases b <;> simp [compare?]

instance : LawfulMeet Flat where
  le_meet_left a b := by
    show Domain.Le a (a.meet b)
    rw [Flat.le_iff]
    cases a <;> cases b <;> grind [Flat.meet]
  le_meet_right a b := by
    show Domain.Le b (a.meet b)
    rw [Flat.le_iff]
    cases a <;> cases b <;> grind [Flat.meet]
  meet_le {a b c} h h' := by
    show Domain.Le (a.meet b) c
    rw [Flat.le_iff] at h h' ⊢
    cases a <;> cases b <;> grind [Flat.meet]

/-! ### Dominators -/

namespace DominatorSet

theorem universal_le (s : DominatorSet) : Domain.Le universal s := by
  cases s with
  | universal => exact .inr rfl
  | only ids => exact .inl rfl

theorem not_only_le_universal (s : Std.ExtTreeSet Nat) : ¬ Domain.Le (only s) universal := by
  rintro (h | h) <;> cases h

/-- Between sets the order is inclusion, the other way round. -/
theorem only_le_only {s t : Std.ExtTreeSet Nat} :
    Domain.Le (only s) (only t) ↔ ∀ d ∈ t, d ∈ s :=
  Domain.ofBelowAbove_le_iff

instance : LawfulDomain DominatorSet where
  compare?_eq_iff {a b} := by
    cases a with
    | universal => cases b <;> simp [Domain.compare?, compare?]
    | only s =>
      cases b with
      | universal => simp [Domain.compare?, compare?]
      | only t =>
        rw [only.injEq, @eq_comm _ s t]
        exact Domain.ofBelowAbove_eq_iff
  compare?_lt_iff {a b} := by
    cases a with
    | universal => cases b <;> simp [Domain.compare?, compare?]
    | only s =>
      cases b with
      | universal => simp [Domain.compare?, compare?]
      | only t => exact Domain.ofBelowAbove_lt_iff
  le_trans {a b c} h h' := by
    cases a with
    | universal => exact universal_le c
    | only s =>
      cases b with
      | universal => exact absurd h (not_only_le_universal s)
      | only t =>
        cases c with
        | universal => exact absurd h' (not_only_le_universal t)
        | only u =>
          rw [only_le_only] at h h' ⊢
          exact fun d hd => h d (h' d hd)
  initial_le := universal_le

instance : LawfulMeet DominatorSet where
  le_meet_left a b := by
    cases a with
    | universal => exact universal_le _
    | only s =>
      cases b with
      | universal => exact Domain.Le.refl _
      | only t => exact only_le_only.2 fun d hd => (Std.ExtTreeSet.mem_inter_iff.1 hd).1
  le_meet_right a b := by
    cases b with
    | universal => exact universal_le _
    | only t =>
      cases a with
      | universal => exact Domain.Le.refl _
      | only s => exact only_le_only.2 fun d hd => (Std.ExtTreeSet.mem_inter_iff.1 hd).2
  meet_le {a b c} h h' := by
    cases a with
    | universal => exact h'
    | only s =>
      cases b with
      | universal => exact h
      | only t =>
        cases c with
        | universal => exact absurd h (not_only_le_universal s)
        | only u =>
          rw [only_le_only] at h h'
          exact only_le_only.2 fun d hd => Std.ExtTreeSet.mem_inter_iff.2 ⟨h d hd, h' d hd⟩

end DominatorSet

/-! ### Larger facts -/

section Monotone

variable {V : Type} [Domain V] [LawfulMeet V]

/-- Larger facts merge to a larger fact. -/
theorem Domain.Le.meet {a b c d : V} (h : Domain.Le a b) (h' : Domain.Le c d) :
    Domain.Le (Domain.meet a c) (Domain.meet b d) :=
  LawfulMeet.meet_le (h.trans (LawfulMeet.le_meet_left b d))
    (h'.trans (LawfulMeet.le_meet_right b d))

namespace Environment

theorem Le.gatherInto {lower upper : Environment V} (h : lower.Le upper) {names : List String}
    {a b v w : V} (hab : Domain.Le a b) (hv : lower.gatherInto a names = .ok v)
    (hw : upper.gatherInto b names = .ok w) : Domain.Le v w := by
  induction names generalizing a b with
  | nil =>
    cases hv
    cases hw
    exact hab
  | cons x names ih =>
    unfold Environment.gatherInto at hv hw
    split at hv
    · cases hv
    · rename_i c hc
      split at hw
      · cases hw
      · rename_i d hd
        obtain ⟨d', hd', hcd⟩ := h.exists_upper (lookup_eq_ok_iff.1 hc)
        obtain rfl : d' = d := Option.some.inj (hd'.symm.trans (lookup_eq_ok_iff.1 hd))
        exact ih (hab.meet hcd) hv hw

/-- What is gathered from a larger environment is larger. -/
theorem Le.gather {lower upper : Environment V} (h : lower.Le upper) {names : List String}
    {v w : V} (hv : lower.gather names = .ok v) (hw : upper.gather names = .ok w) :
    Domain.Le v w :=
  h.gatherInto (Domain.Le.refl _) hv hw

/-- What is gathered is above each of the facts. -/
theorem le_gather {env : Environment V} {names : List String} {v w : V}
    (h : env.gather names = .ok v) {x : String} (hx : x ∈ names) (hw : env[x]? = some w) :
    Domain.Le w v := by
  suffices ∀ u, env.gatherInto u names = .ok v →
      Domain.Le u v ∧ (x ∈ names → Domain.Le w v) from (this _ h).2 hx
  clear h hx
  induction names with
  | nil =>
    intro u h
    cases h
    exact ⟨Domain.Le.refl _, by simp⟩
  | cons y names ih =>
    intro u h
    rw [Environment.gatherInto] at h
    cases hy : env.lookup y with
    | error e => simp [hy] at h
    | ok c =>
      rw [hy] at h
      obtain ⟨hmeet, hrest⟩ := ih _ h
      refine ⟨(LawfulMeet.le_meet_left u c).trans hmeet, fun hx => ?_⟩
      rcases List.mem_cons.1 hx with rfl | hx
      · obtain rfl : c = w := Option.some.inj ((lookup_eq_ok_iff.1 hy).symm.trans hw)
        exact (LawfulMeet.le_meet_right u c).trans hmeet
      · exact hrest hx

end Environment

end Monotone

end Dataflow

import Dataflow.Proofs.Meet
import Mathlib.Order.Lattice

/-!
# Domains are semilattices

Where merging is lawful, the facts of a domain are a semilattice with merging for the supremum
(`Domain.semilattice`), so all that is known about semilattices holds of them.
`Domain.IsSemilattice` lists the laws that solvers and analyses live on, and
`domains_semilattice` says that the facts of all the analyses obey them.
-/

namespace Dataflow

namespace Domain

/-! ### Laws of merging -/

/-- The comparison is a partial order that agrees with equality, the initial fact is the least one,
and merging gives the least fact above both. -/
structure IsSemilattice (V : Type) [Domain V] : Prop where
  compare?_eq_iff : ∀ a b : V, compare? a b = some .eq ↔ a = b
  compare?_lt_iff : ∀ a b : V, compare? a b = some .lt ↔ compare? b a = some .gt
  compare?_none_iff : ∀ a b : V, compare? a b = none ↔ ¬ Le a b ∧ ¬ Le b a
  le_trans : ∀ a b c : V, Le a b → Le b c → Le a c
  lt_trans : ∀ a b c : V,
    compare? a b = some .lt → compare? b c = some .lt → compare? a c = some .lt
  initial_le : ∀ a : V, Le initial a
  meet_le_iff : ∀ a b c : V, Le (meet a b) c ↔ Le a c ∧ Le b c
  meet_assoc : ∀ a b c : V, meet (meet a b) c = meet a (meet b c)
  meet_comm : ∀ a b : V, meet a b = meet b a
  meet_self : ∀ a : V, meet a a = a
  initial_meet : ∀ a : V, meet initial a = a
  meet_initial : ∀ a : V, meet a initial = a
  le_iff_meet_eq : ∀ a b : V, Le a b ↔ meet a b = b

variable {V : Type} [Domain V]

theorem compare?_eq_none_iff [LawfulDomain V] {a b : V} :
    compare? a b = none ↔ ¬ Le a b ∧ ¬ Le b a := by
  constructor
  · intro hnone
    refine ⟨by simp [Le, hnone], ?_⟩
    rintro (hlt | heq)
    · rw [LawfulDomain.compare?_lt_iff, hnone] at hlt
      cases hlt
    · cases LawfulDomain.compare?_eq_iff.1 heq
      rw [hnone] at heq
      cases heq
  · rintro ⟨hab, hba⟩
    cases h : compare? a b with
    | none => rfl
    | some o =>
      cases o with
      | lt => exact absurd (.inl h) hab
      | eq => exact absurd (.inr h) hab
      | gt => exact absurd (.inl (LawfulDomain.compare?_lt_iff.2 h)) hba

theorem compare?_lt_iff_le_and_ne [LawfulDomain V] {a b : V} :
    compare? a b = some .lt ↔ Le a b ∧ a ≠ b := by
  constructor
  · intro hlt
    refine ⟨.inl hlt, fun hab => ?_⟩
    rw [LawfulDomain.compare?_eq_iff.2 hab] at hlt
    cases hlt
  · rintro ⟨hle, hne⟩
    exact hle.resolve_right fun heq => hne (LawfulDomain.compare?_eq_iff.1 heq)

/-- Facts with lawful merging, as a semilattice. -/
abbrev semilattice (V : Type) [Domain V] [LawfulMeet V] : SemilatticeSup V where
  le := Le
  le_refl := Le.refl
  le_trans _ _ _ := Le.trans
  le_antisymm _ _ := Le.antisymm
  sup := meet
  le_sup_left := LawfulMeet.le_meet_left
  le_sup_right := LawfulMeet.le_meet_right
  sup_le _ _ _ := LawfulMeet.meet_le

/-- **Lawful merging makes a semilattice.** -/
theorem isSemilattice (V : Type) [Domain V] [LawfulMeet V] : IsSemilattice V := by
  let _ := semilattice V
  exact {
    compare?_eq_iff := fun _ _ => LawfulDomain.compare?_eq_iff
    compare?_lt_iff := fun _ _ => LawfulDomain.compare?_lt_iff
    compare?_none_iff := fun _ _ => compare?_eq_none_iff
    le_trans := fun _ _ _ => Le.trans
    lt_trans := by
      intro a b c hab hbc
      rw [compare?_lt_iff_le_and_ne] at hab hbc ⊢
      refine ⟨hab.1.trans hbc.1, ?_⟩
      rintro rfl
      exact hab.2 (hab.1.antisymm hbc.1)
    initial_le := LawfulDomain.initial_le
    meet_le_iff := fun a b c => sup_le_iff (a := a) (b := b) (c := c)
    meet_assoc := sup_assoc
    meet_comm := sup_comm
    meet_self := sup_idem
    initial_meet := fun a => sup_eq_right.2 (LawfulDomain.initial_le a)
    meet_initial := fun a => sup_eq_left.2 (LawfulDomain.initial_le a)
    le_iff_meet_eq := fun a b => (sup_eq_right (a := a) (b := b)).symm }

end Domain

open Domain in
/-- **The facts of all the analyses are semilattices**: constants, definitions, dominators, and
names.  Sets of names compare by inclusion, although only one inclusion is ever tested, and
extending one by another tells whether that has added a name. -/
theorem domains_semilattice :
    IsSemilattice Flat ∧ IsSemilattice DefinitionSet ∧ IsSemilattice DominatorSet ∧
    IsSemilattice LocationSet ∧
    ∀ s t : LocationSet, compare? s t = ofBelowAbove (subset s t) (subset t s) ∧
      ((extend s t).1 = true ↔ ¬ ∀ name ∈ t, name ∈ s) ∧ (extend s t).2 = meet s t :=
  ⟨isSemilattice Flat, isSemilattice DefinitionSet, isSemilattice DominatorSet,
    isSemilattice LocationSet, fun s t => ⟨compareBySize?_eq s t, extend_fst_iff, rfl⟩⟩

end Dataflow

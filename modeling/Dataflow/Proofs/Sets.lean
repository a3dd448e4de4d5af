import Dataflow.Definitions.Set
import Mathlib.Data.List.Perm.Subperm

/-!
# Sets of facts

Sets of facts are ordered by inclusion.  How that is found out differs: sets of definitions are
tested in both directions, sets of names are compared by their sizes first.  The sizes are as good
as a second test, because a set within another one of the same size is the same set
(`compareBySize?_eq`).  What tells that a set has grown is its size as well (`extend_fst_iff`).

`Domain.ByInclusion` is what both kinds of sets have in common.  Proofs about sets start from it.
-/

namespace Dataflow.Domain

section Sets

variable {α : Type} {cmp : α → α → Ordering} [Std.TransCmp cmp] [Std.LawfulEqCmp cmp]
  {s t : Std.ExtTreeSet α cmp}

/-- The elements of a larger set. -/
theorem subset_iff : subset s t = true ↔ ∀ a ∈ s, a ∈ t := by
  simp only [subset, List.all_eq_true, Std.ExtTreeSet.mem_toList,
    Std.ExtTreeSet.contains_iff_mem]

/-! ### Sizes -/

theorem nodup_toList (s : Std.ExtTreeSet α cmp) : s.toList.Nodup := by
  refine Std.ExtTreeSet.distinct_toList.imp fun {a b} hne heq => hne ?_
  rw [heq, Std.LawfulEqCmp.compare_eq_iff_eq]

theorem subperm_toList (h : ∀ a ∈ s, a ∈ t) : s.toList.Subperm t.toList := by
  refine List.subperm_of_subset (nodup_toList s) fun a ha => ?_
  rw [Std.ExtTreeSet.mem_toList] at ha ⊢
  exact h a ha

/-- A set within another one is not larger. -/
theorem size_le_of_forall_mem (h : ∀ a ∈ s, a ∈ t) : s.size ≤ t.size := by
  rw [← Std.ExtTreeSet.length_toList, ← Std.ExtTreeSet.length_toList]
  exact (subperm_toList h).length_le

/-- A set within another one that is not larger is all of it. -/
theorem eq_of_forall_mem_of_size_le (h : ∀ a ∈ s, a ∈ t) (hsize : t.size ≤ s.size) : s = t := by
  rw [← Std.ExtTreeSet.length_toList, ← Std.ExtTreeSet.length_toList] at hsize
  have hperm := (subperm_toList h).perm_of_length_le hsize
  refine Std.ExtTreeSet.ext_mem fun a => ?_
  rw [← Std.ExtTreeSet.mem_toList, hperm.mem_iff, Std.ExtTreeSet.mem_toList]

theorem size_union_eq_iff : (s ∪ t).size = s.size ↔ ∀ a ∈ t, a ∈ s := by
  have hleft : ∀ a ∈ s, a ∈ s ∪ t := fun a ha => Std.ExtTreeSet.mem_union_iff.2 (.inl ha)
  constructor
  · intro hsize a ha
    rw [eq_of_forall_mem_of_size_le hleft (Nat.le_of_eq hsize)]
    exact Std.ExtTreeSet.mem_union_iff.2 (.inr ha)
  · intro hsub
    refine Nat.le_antisymm (size_le_of_forall_mem fun a ha => ?_) (size_le_of_forall_mem hleft)
    exact (Std.ExtTreeSet.mem_union_iff.1 ha).elim id (hsub a)

/-- Extending a set tells the truth about its growth. -/
theorem extend_fst_iff : (extend s t).1 = true ↔ ¬ ∀ a ∈ t, a ∈ s := by
  rw [extend, bne_iff_ne, Ne, size_union_eq_iff]

theorem subset_eq_false_of_size_lt (h : t.size < s.size) : subset s t = false := by
  rw [Bool.eq_false_iff, Ne, subset_iff]
  exact fun hsub => absurd (size_le_of_forall_mem hsub) (Nat.not_le.2 h)

/-- Between sets of one size there is no inclusion but equality. -/
theorem subset_comm_of_size_eq (h : s.size = t.size) : subset t s = subset s t := by
  rw [Bool.eq_iff_iff, subset_iff, subset_iff]
  constructor
  · intro hsub
    exact eq_of_forall_mem_of_size_le hsub (Nat.le_of_eq h) ▸ fun _ ha => ha
  · intro hsub
    exact eq_of_forall_mem_of_size_le hsub (Nat.le_of_eq h.symm) ▸ fun _ ha => ha

/-- **The sizes and one inclusion tell how sets compare.** -/
theorem compareBySize?_eq (s t : Std.ExtTreeSet α cmp) :
    compareBySize? s t = ofBelowAbove (subset s t) (subset t s) := by
  unfold compareBySize?
  -- with the sizes known, the inclusion that is not tested follows from the one that is
  split
  · rename_i hlt
    rw [subset_eq_false_of_size_lt (Nat.compare_eq_lt.1 hlt)]
    cases subset s t <;> rfl
  · rename_i heq
    rw [subset_comm_of_size_eq (Nat.compare_eq_eq.1 heq)]
    cases subset s t <;> rfl
  · rename_i hgt
    rw [subset_eq_false_of_size_lt (Nat.compare_eq_gt.1 hgt)]
    cases subset t s <;> rfl

/-! ### Inclusion in both directions -/

theorem ofBelowAbove_lt_iff {below above : Bool} :
    ofBelowAbove below above = some .lt ↔ ofBelowAbove above below = some .gt := by
  cases below <;> cases above <;> simp [ofBelowAbove]

/-- Sets within each other are equal. -/
theorem ofBelowAbove_eq_iff : ofBelowAbove (subset s t) (subset t s) = some .eq ↔ s = t := by
  have hboth : ofBelowAbove (subset s t) (subset t s) = some .eq ↔
      subset s t = true ∧ subset t s = true := by
    cases subset s t <;> cases subset t s <;> simp [ofBelowAbove]
  rw [hboth, subset_iff, subset_iff]
  constructor
  · rintro ⟨hst, hts⟩
    exact Std.ExtTreeSet.ext_mem fun a => ⟨hst a, hts a⟩
  · rintro rfl
    exact ⟨fun _ h => h, fun _ h => h⟩

theorem ofBelowAbove_le_iff :
    ofBelowAbove (subset s t) (subset t s) = some .lt ∨
      ofBelowAbove (subset s t) (subset t s) = some .eq ↔ ∀ a ∈ s, a ∈ t := by
  rw [← subset_iff]
  cases subset s t <;> cases subset t s <;> simp [ofBelowAbove]

end Sets

/-! ### Domains of sets -/

/-- Sets that start empty, merge by union and compare by inclusion. -/
class ByInclusion (α : Type) (cmp : α → α → Ordering) [Std.TransCmp cmp]
    [Domain (Std.ExtTreeSet α cmp)] : Prop where
  initial_eq : (initial : Std.ExtTreeSet α cmp) = ∅
  meet_eq : ∀ s t : Std.ExtTreeSet α cmp, meet s t = s ∪ t
  compare?_eq : ∀ s t : Std.ExtTreeSet α cmp,
    compare? s t = ofBelowAbove (subset s t) (subset t s)

instance : ByInclusion Definition compare where
  initial_eq := rfl
  meet_eq _ _ := rfl
  compare?_eq _ _ := rfl

instance : ByInclusion String compare where
  initial_eq := rfl
  meet_eq _ _ := rfl
  compare?_eq := compareBySize?_eq

variable {α : Type} {cmp : α → α → Ordering} [Std.TransCmp cmp] [Domain (Std.ExtTreeSet α cmp)]
  [ByInclusion α cmp] {s t : Std.ExtTreeSet α cmp} {a : α}

theorem notMem_initial : a ∉ (initial : Std.ExtTreeSet α cmp) := by
  rw [ByInclusion.initial_eq]
  exact Std.ExtTreeSet.not_mem_empty

theorem mem_meet_iff : a ∈ meet s t ↔ a ∈ s ∨ a ∈ t := by
  rw [ByInclusion.meet_eq]
  exact Std.ExtTreeSet.mem_union_iff

/-- The order of sets is inclusion. -/
theorem le_iff_forall_mem [Std.LawfulEqCmp cmp] : Le s t ↔ ∀ a ∈ s, a ∈ t := by
  rw [Le, ByInclusion.compare?_eq]
  exact ofBelowAbove_le_iff

end Dataflow.Domain

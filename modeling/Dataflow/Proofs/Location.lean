import Dataflow.Location
import Mathlib.Data.List.Basic
import Std.Data.String.ToNat

/-!
# Names of storage locations are unambiguous

The name of a storage location is put together from two decimal numbers.  No digit is the separator
between them, so both can be read off the name again (`cellName_inj`).
-/

namespace Dataflow

theorem cellName_eq (site n : Nat) : cellName site n = "ref_" ++ site.repr ++ "_" ++ n.repr := rfl

theorem separator_notMem_repr (n : Nat) : '_' ∉ n.repr.toList := by
  intro h
  rw [Nat.toList_repr] at h
  exact absurd (Nat.isDigit_of_mem_toDigits (by decide) (by decide) h) (by decide)

theorem cellName_inj {site site' n n' : Nat} :
    cellName site n = cellName site' n' ↔ site = site' ∧ n = n' := by
  constructor
  · intro h
    rw [cellName_eq, cellName_eq] at h
    have hlist := congrArg String.toList h
    simp only [String.toList_append, List.append_assoc, List.append_cancel_left_eq] at hlist
    have hparts : site.repr.toList ++ '_' :: n.repr.toList =
        site'.repr.toList ++ '_' :: n'.repr.toList := hlist
    rw [List.append_cons_inj_of_notMem (separator_notMem_repr site) (separator_notMem_repr n),
      String.toList_inj, String.toList_inj] at hparts
    exact ⟨Nat.repr_injective hparts.1, Nat.repr_injective hparts.2.2⟩
  · rintro ⟨rfl, rfl⟩
    rfl

end Dataflow

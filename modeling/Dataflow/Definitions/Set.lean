import Dataflow.Domain

/-!
# Sets of definitions

A definition is a variable with the instruction that writes it.  Definitions are ordered by
variable, then by instruction.
-/

namespace Dataflow

/-- A variable and the id of an instruction that writes it. -/
structure Definition where
  name : String
  site : Nat
  deriving DecidableEq, Repr

namespace Definition

instance : Ord Definition where
  compare := compareLex (compareOn Definition.name) (compareOn Definition.site)

instance : Std.TransOrd Definition :=
  inferInstanceAs (Std.TransCmp (compareLex (compareOn Definition.name)
    (compareOn Definition.site)))

instance : Std.LawfulEqOrd Definition where
  eq_of_compare {a b} h := by
    have h' : (compare a.name b.name).then (compare a.site b.site) = .eq := h
    rw [Ordering.then_eq_eq] at h'
    cases a
    cases b
    simp only [Std.LawfulEqOrd.compare_eq_iff_eq] at h'
    simp [h'.1, h'.2]

/-- The text of a definition. -/
def text (d : Definition) : String := s!"({d.name}, {d.site})"

instance : ToString Definition := ⟨text⟩

end Definition

/-- A set of definitions that may reach a point. -/
abbrev DefinitionSet := Std.ExtTreeSet Definition

instance : Domain DefinitionSet where
  initial := ∅
  meet s t := s ∪ t
  compare? s t := Domain.ofBelowAbove (Domain.subset s t) (Domain.subset t s)

instance : ToString DefinitionSet := ⟨Domain.setText Definition.text⟩

namespace DefinitionSet

/-- Remove all definitions of a variable. -/
def kill (s : DefinitionSet) (name : String) : DefinitionSet :=
  s.filter fun d => d.name != name

theorem mem_kill {s : DefinitionSet} {name : String} {d : Definition} :
    d ∈ s.kill name ↔ d ∈ s ∧ d.name ≠ name := by
  simp [kill, Std.ExtTreeSet.mem_filter]

end DefinitionSet

end Dataflow

import Dataflow.Point
import Dataflow.Proofs.Flowgraph.Path
import Dataflow.Proofs.Solver.FixedPoint
import Mathlib.Data.List.Nodup
import Std.Data.String.ToNat

/-!
# Facts at program points

The name of a point tells the instruction, and whether the point is before or after it.  So the
points of different instructions never share a fact.

Some analyses have one equation for each point (`AtPoints`), whatever these say.  A solution then
has a fact for each point, given by its equation (`AtPoints.exists_in`, `AtPoints.exists_out`).  And
what the equations of both kinds keep holds of all the facts that are found
(`AtPoints.fits_of_solve`).
-/

namespace Dataflow

open Solver Equation

/-! ### Names -/

/-- A number can be read off after a known beginning. -/
theorem append_repr_inj (s : String) {m n : Nat} : s ++ m.repr = s ++ n.repr ↔ m = n := by
  constructor
  · intro h
    have hlist := congrArg String.toList h
    simp only [String.toList_append, List.append_cancel_left_eq, String.toList_inj] at hlist
    exact Nat.repr_injective hlist
  · rintro rfl
    rfl

theorem inName_inj {m n : Nat} : inName m = inName n ↔ m = n := append_repr_inj "IN_"

theorem outName_inj {m n : Nat} : outName m = outName n ↔ m = n := append_repr_inj "OUT_"

theorem inName_ne_outName (m n : Nat) : inName m ≠ outName n := by
  intro h
  have hlist : ("IN_" ++ m.repr).toList = ("OUT_" ++ n.repr).toList := congrArg String.toList h
  simp at hlist

/-- All the points of different instructions have different names. -/
theorem nodup_points {ids : List Nat} (h : ids.Nodup) :
    (ids.map inName ++ ids.map outName).Nodup := by
  rw [List.nodup_append]
  refine ⟨h.map fun _ _ => inName_inj.1, h.map fun _ _ => outName_inj.1, ?_⟩
  intro x hx y hy
  obtain ⟨m, -, rfl⟩ := List.mem_map.1 hx
  obtain ⟨n, -, rfl⟩ := List.mem_map.1 hy
  exact inName_ne_outName m n

/-! ### Equations at points -/

variable {E V : Type} [Equation E V] {p : Program} {es : Array E} {ofIn ofOut : Instruction → E}

/-- The equations are those of the points before and after the instructions of a program, in some
order. -/
structure AtPoints (p : Program) (es : Array E) (ofIn ofOut : Instruction → E) : Prop where
  perm : es.toList.Perm (p.instructions.toList.map ofIn ++ p.instructions.toList.map ofOut)
  name_ofIn : ∀ i, name (ofIn i) = inName i.id
  name_ofOut : ∀ i, name (ofOut i) = outName i.id

namespace AtPoints

theorem mem_iff (h : AtPoints p es ofIn ofOut) {e : E} :
    e ∈ es ↔ ∃ i ∈ p.instructions, e = ofIn i ∨ e = ofOut i := by
  rw [← Array.mem_toList_iff, h.perm.mem_iff, List.mem_append, List.mem_map, List.mem_map]
  simp only [Array.mem_toList_iff]
  constructor
  · rintro (⟨i, hi, rfl⟩ | ⟨i, hi, rfl⟩)
    · exact ⟨i, hi, .inl rfl⟩
    · exact ⟨i, hi, .inr rfl⟩
  · rintro ⟨i, hi, rfl | rfl⟩
    · exact .inl ⟨i, hi, rfl⟩
    · exact .inr ⟨i, hi, rfl⟩

theorem size_eq (h : AtPoints p es ofIn ofOut) : es.size = 2 * p.size := by
  have hlength := h.perm.length_eq
  simpa [Program.size, Nat.two_mul] using hlength

theorem nodup_names (h : AtPoints p es ofIn ofOut) (hp : p.Consistent) : (names es).Nodup := by
  have hnames : (names es).Perm ((p.instructions.toList.map (·.id)).map inName ++
      (p.instructions.toList.map (·.id)).map outName) := by
    have hmap := h.perm.map name
    simpa only [names, List.map_append, List.map_map, Function.comp_def, h.name_ofIn,
      h.name_ofOut] using hmap
  rw [hnames.nodup_iff, hp.ids_eq_range]
  exact nodup_points List.nodup_range

theorem inName_mem_names (h : AtPoints p es ofIn ofOut) (hp : p.Consistent) {n : Nat}
    (hn : n < p.size) : inName n ∈ names es := by
  obtain ⟨i, hi⟩ := Program.exists_instruction hn
  rw [← hp.id hi, ← h.name_ofIn]
  exact name_mem_names (h.mem_iff.2 ⟨i, Array.mem_of_getElem? hi, .inl rfl⟩)

theorem outName_mem_names (h : AtPoints p es ofIn ofOut) (hp : p.Consistent) {n : Nat}
    (hn : n < p.size) : outName n ∈ names es := by
  obtain ⟨i, hi⟩ := Program.exists_instruction hn
  rw [← hp.id hi, ← h.name_ofOut]
  exact name_mem_names (h.mem_iff.2 ⟨i, Array.mem_of_getElem? hi, .inr rfl⟩)

variable [Domain V] [DecidableEq V] {strategy : Strategy} {options : Options}
  {solution : Solution V}

/-! ### Solutions -/

section Solutions

variable (h : AtPoints p es ofIn ofOut) (hp : p.Consistent) (hlocal : ∀ e ∈ es, Local e)
  (hsolve : Solver.solve strategy es ∅ options = .ok solution)
include h hp hlocal hsolve

/-- A solution has a fact before each instruction, which its equation gives. -/
theorem exists_in {n : Nat} (hn : n < p.size) : ∃ i v, p.instructions[n]? = some i ∧
    solution.environment[inName n]? = some v ∧ eval (ofIn i) solution.environment = .ok v := by
  have hsat := satisfied_of_solve hlocal (sharedNamesRead_of_nodup (h.nodup_names hp)) hsolve
  obtain ⟨i, hi⟩ := Program.exists_instruction hn
  obtain ⟨v, heval, hget⟩ := hsat (ofIn i) (h.mem_iff.2 ⟨i, Array.mem_of_getElem? hi, .inl rfl⟩)
  rw [h.name_ofIn, hp.id hi] at hget
  exact ⟨i, v, hi, hget, heval⟩

/-- A solution has a fact after each instruction, which its equation gives. -/
theorem exists_out {n : Nat} (hn : n < p.size) : ∃ i v, p.instructions[n]? = some i ∧
    solution.environment[outName n]? = some v ∧ eval (ofOut i) solution.environment = .ok v := by
  have hsat := satisfied_of_solve hlocal (sharedNamesRead_of_nodup (h.nodup_names hp)) hsolve
  obtain ⟨i, hi⟩ := Program.exists_instruction hn
  obtain ⟨v, heval, hget⟩ := hsat (ofOut i) (h.mem_iff.2 ⟨i, Array.mem_of_getElem? hi, .inr rfl⟩)
  rw [h.name_ofOut, hp.id hi] at hget
  exact ⟨i, v, hi, hget, heval⟩

end Solutions

end AtPoints

/-! ### What is found at points -/

/-- The fact has the property that is asked for at the point with this name: `Before n` before the
instruction `n`, and `After n` after it. -/
def FitsAt (Before After : Nat → V → Prop) (name : String) (v : V) : Prop :=
  (∀ n, name = inName n → Before n v) ∧ ∀ n, name = outName n → After n v

section FitsAt

variable {Before After : Nat → V → Prop} {v : V}

theorem fitsAt_inName {n : Nat} : FitsAt Before After (inName n) v ↔ Before n v := by
  simp [FitsAt, inName_inj, inName_ne_outName]

theorem fitsAt_outName {n : Nat} : FitsAt Before After (outName n) v ↔ After n v := by
  simp [FitsAt, outName_inj, (inName_ne_outName _ _).symm]

/-- **What the equations keep holds of all that is found.**  If the facts that an equation reads
have the properties that are asked for at their points, so does the fact that it gives. -/
theorem AtPoints.fits_of_solve [Domain V] [DecidableEq V] (h : AtPoints p es ofIn ofOut)
    (hp : p.Consistent) (hinitial : ∀ n, Before n Domain.initial ∧ After n Domain.initial)
    (hin : ∀ {n i env v}, p.instructions[n]? = some i →
      (∀ m w, env[outName m]? = some w → After m w) → eval (ofIn i) env = .ok v → Before n v)
    (hout : ∀ {n i env v}, p.instructions[n]? = some i →
      (∀ m w, env[inName m]? = some w → Before m w) → eval (ofOut i) env = .ok v → After n v)
    {strategy : Strategy} {options : Options} {solution : Solution V}
    (hsolve : Solver.solve strategy es ∅ options = .ok solution) {x : String}
    (hx : solution.environment[x]? = some v) : FitsAt Before After x v := by
  refine solve_invariant (fun _ => ⟨fun n _ => (hinitial n).1, fun n _ => (hinitial n).2⟩)
    (fun e he env v henv heval => ?_) hsolve hx
  obtain ⟨i, hmem, he⟩ := h.mem_iff.1 he
  obtain ⟨n, hi⟩ := Array.getElem?_of_mem hmem
  rcases he with rfl | rfl
  · rw [h.name_ofIn, hp.id hi, fitsAt_inName]
    exact hin hi (fun m w hw => fitsAt_outName.1 (henv _ w hw)) heval
  · rw [h.name_ofOut, hp.id hi, fitsAt_outName]
    exact hout hi (fun m w hw => fitsAt_inName.1 (henv _ w hw)) heval

end FitsAt

end Dataflow

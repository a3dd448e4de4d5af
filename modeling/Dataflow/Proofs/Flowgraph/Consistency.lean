import Dataflow.Flowgraph.Program
import Mathlib.Data.List.Perm.Basic
import Mathlib.Tactic.ByContra
import Mathlib.Tactic.SplitIfs

/-!
# Flow graphs are consistent

A program records every edge twice: at its source among the targets, and at its target among the
predecessors.  `Program.Consistent` says that both records tell the same, each edge as often in the
one as in the other, that the id of an instruction is its index, and that exactly the branches have
slots.  All edits keep a program consistent, whether they succeed or not (`Consistent.edit`), so
every program that is built by edits is consistent (`Built.consistent`).

The edits of edges are one edit with different ways to change the source (`Program.connect`).
`Instruction.Retargets` says what these have in common: there is one more edge, in the place of at
most one other.
-/

namespace Dataflow

/-- Whether these are the two slots of a branch. -/
def Successors.isBranch : Successors → Bool
  | sequential _ => false
  | branch _ _ => true

/-! ### Changing the edges of one instruction -/

namespace Instruction

/-- What stays the same about an instruction while its edges change. -/
def vertex (i : Instruction) : Nat × Operation × Bool :=
  (i.id, i.operation, i.successors.isBranch)

/-- The instruction `i'` is `i` with a new edge to `target`, in the place of the edge to `replaced`
if there is such. -/
structure Retargets (target : Nat) (i : Instruction) (replaced : Option Nat) (i' : Instruction) :
    Prop where
  vertex : i'.vertex = i.vertex
  predecessors : i'.predecessors = i.predecessors
  mem_targets : ∀ old, replaced = some old → old ∈ i.targets
  perm : (replaced.toList ++ i'.targets).Perm (target :: i.targets)

theorem retargets_addTarget (t : Nat) (i : Instruction) :
    Retargets t i (i.addTarget t).1 (i.addTarget t).2 := by
  obtain ⟨id, op, successors, predecessors⟩ := i
  cases successors with
  | sequential ts =>
    refine ⟨rfl, rfl, ?_, List.perm_append_singleton t ts⟩
    rintro old ⟨⟩
  | branch onTrue onFalse =>
    refine ⟨rfl, rfl, ?_, ?_⟩
    · intro old hold
      have hfalse : onFalse = some old := hold
      simp [targets, hfalse]
    · show (onFalse.toList ++ (onTrue.toList ++ [t])).Perm (t :: (onTrue.toList ++ onFalse.toList))
      rw [← List.append_assoc]
      exact (List.perm_append_singleton t _).trans (List.perm_append_comm.cons t)

theorem retargets_setBranchTarget {taken : Bool} {t : Nat} {i i' : Instruction}
    {replaced : Option Nat} (h : i.setBranchTarget taken t = .ok (replaced, i')) :
    Retargets t i replaced i' := by
  obtain ⟨id, op, successors, predecessors⟩ := i
  cases successors with
  | sequential ts => cases h
  | branch onTrue onFalse =>
    cases taken with
    | false =>
      -- filling the slot of `false` is what adding an edge to a branch does
      cases h
      exact retargets_addTarget t _
    | true =>
      cases h
      refine ⟨rfl, rfl, ?_, List.perm_middle⟩
      intro old hold
      simp [targets, hold]

end Instruction

namespace Program

/-! ### Edges in a program -/

/-- The targets of the instruction at an index; there are none without an instruction. -/
def targetsOf (p : Program) (m : Nat) : List Nat := (p.instructions[m]?.map (·.targets)).getD []

/-- The predecessors of the instruction at an index; there are none without an instruction. -/
def predecessorsOf (p : Program) (n : Nat) : List Nat :=
  (p.instructions[n]?.map (·.predecessors)).getD []

/-- The vertex at an index. -/
def vertexOf (p : Program) (n : Nat) : Option (Nat × Operation × Bool) :=
  p.instructions[n]?.map (·.vertex)

/-- Both records of the edges of a program agree, and its instructions are where their ids say. -/
structure Consistent (p : Program) : Prop where
  id : ∀ {n : Nat} {i : Instruction}, p.instructions[n]? = some i → i.id = n
  slots : ∀ {n : Nat} {i : Instruction}, p.instructions[n]? = some i →
    i.successors.isBranch = i.operation.isBranch
  mirror : ∀ m n, (p.predecessorsOf n).count m = (p.targetsOf m).count n

variable {p : Program}

theorem targetsOf_eq {m : Nat} {i : Instruction} (h : p.instructions[m]? = some i) :
    p.targetsOf m = i.targets := by
  simp [targetsOf, h]

theorem predecessorsOf_eq {n : Nat} {i : Instruction} (h : p.instructions[n]? = some i) :
    p.predecessorsOf n = i.predecessors := by
  simp [predecessorsOf, h]

theorem exists_instruction {n : Nat} (h : n < p.size) : ∃ i, p.instructions[n]? = some i :=
  ⟨_, Array.getElem?_eq_getElem h⟩

theorem mem_toList_iff {i : Instruction} :
    i ∈ p.instructions.toList ↔ ∃ n : Nat, p.instructions[n]? = some i := by
  rw [Array.mem_toList_iff, Array.mem_iff_getElem?]

theorem lt_size {n : Nat} {i : Instruction} (h : p.instructions[n]? = some i) : n < p.size :=
  (Array.getElem?_eq_some_iff.1 h).1

theorem lt_size_of_mem_targetsOf {m n : Nat} (h : n ∈ p.targetsOf m) : m < p.size := by
  by_contra hm
  have hnone : p.instructions[m]? = none := Array.getElem?_eq_none (Nat.le_of_not_lt hm)
  simp [targetsOf, hnone] at h

theorem lt_size_of_mem_predecessorsOf {m n : Nat} (h : m ∈ p.predecessorsOf n) : n < p.size := by
  by_contra hn
  have hnone : p.instructions[n]? = none := Array.getElem?_eq_none (Nat.le_of_not_lt hn)
  simp [predecessorsOf, hnone] at h

/-- The instruction at one end of an edge knows the other end. -/
theorem Consistent.mem_predecessorsOf_iff (hp : p.Consistent) {m n : Nat} :
    m ∈ p.predecessorsOf n ↔ n ∈ p.targetsOf m := by
  rw [← List.count_pos_iff, ← List.count_pos_iff, hp.mirror]

/-! ### Changing one instruction of a program -/

theorem getElem?_modify (p : Program) (id n : Nat) (f : Instruction → Instruction) :
    (p.modify id f).instructions[n]? =
      if id = n then p.instructions[n]?.map f else p.instructions[n]? := by
  simp [modify, Array.getElem?_modify]

/-- A change that keeps the vertex of an instruction keeps all vertices of the program. -/
theorem vertexOf_modify {f : Instruction → Instruction} {id : Nat}
    (hf : ∀ i, p.instructions[id]? = some i → (f i).vertex = i.vertex) (n : Nat) :
    (p.modify id f).vertexOf n = p.vertexOf n := by
  unfold vertexOf
  rw [getElem?_modify]
  split_ifs with hn
  · subst hn
    cases hi : p.instructions[id]? with
    | none => rfl
    | some i => exact congrArg some (hf i hi)
  · rfl

/-- A change that keeps the targets of an instruction keeps those of the program. -/
theorem targetsOf_modify {f : Instruction → Instruction} (hf : ∀ i, (f i).targets = i.targets)
    (id m : Nat) : (p.modify id f).targetsOf m = p.targetsOf m := by
  unfold targetsOf
  rw [getElem?_modify]
  split_ifs
  · simp [Function.comp_def, hf]
  · rfl

theorem count_predecessorsOf_add {target : Nat} (ht : target < p.size) (source m n : Nat) :
    ((p.modify target (.addPredecessor source)).predecessorsOf n).count m =
      (p.predecessorsOf n).count m + if target = n ∧ source = m then 1 else 0 := by
  unfold predecessorsOf
  rw [getElem?_modify]
  by_cases hn : target = n
  · subst hn
    obtain ⟨i, hi⟩ := exists_instruction ht
    simp [hi, Instruction.addPredecessor, List.count_singleton]
  · simp [hn]

theorem count_predecessorsOf_drop (old source m n : Nat) :
    ((p.modify old (.dropPredecessor source)).predecessorsOf n).count m =
      (p.predecessorsOf n).count m - if old = n ∧ source = m then 1 else 0 := by
  unfold predecessorsOf
  rw [getElem?_modify]
  by_cases hn : old = n
  · subst hn
    cases p.instructions[old]? with
    | none => simp
    | some i => simp [Instruction.dropPredecessor, List.count_erase, @eq_comm _ source]
  · simp [hn]

/-- Relinking keeps vertices and targets, and moves one entry among the predecessors. -/
theorem relink_spec (source : Nat) {target : Nat} {replaced : Option Nat} (ht : target < p.size)
    (hold : ∀ old, replaced = some old → old < p.size) :
    ∃ p', p.relink source replaced target = (p', .ok ()) ∧
      (∀ n, p'.vertexOf n = p.vertexOf n) ∧
      (∀ m, p'.targetsOf m = p.targetsOf m) ∧
      ∀ m n, (p'.predecessorsOf n).count m = (p.predecessorsOf n).count m -
        (if replaced = some n ∧ source = m then 1 else 0) +
        if target = n ∧ source = m then 1 else 0 := by
  cases replaced with
  | none =>
    refine ⟨_, rfl, fun n => ?_, fun m => ?_, fun m n => ?_⟩
    · exact vertexOf_modify (f := .addPredecessor source) (fun _ _ => rfl) n
    · exact targetsOf_modify (f := .addPredecessor source) (fun _ => rfl) target m
    · rw [count_predecessorsOf_add ht]
      simp
  | some old =>
    obtain ⟨i, hi⟩ := exists_instruction (hold old rfl)
    have hfound : p.instruction old = .ok i := instruction_eq_ok_iff.2 hi
    refine ⟨(p.modify old (.dropPredecessor source)).modify target (.addPredecessor source),
      by simp only [relink, hfound], fun n => ?_, fun m => ?_, fun m n => ?_⟩
    · rw [vertexOf_modify (f := .addPredecessor source) fun _ _ => rfl,
        vertexOf_modify (f := .dropPredecessor source) fun _ _ => rfl]
    · rw [targetsOf_modify (f := .addPredecessor source) fun _ => rfl,
        targetsOf_modify (f := .dropPredecessor source) fun _ => rfl]
    · rw [count_predecessorsOf_add (by simpa using ht), count_predecessorsOf_drop]
      simp only [Option.some.injEq]

/-! ### Edits -/

theorem consistent_empty : empty.Consistent where
  id h := by simp [empty] at h
  slots h := by simp [empty] at h
  mirror _ _ := by simp [predecessorsOf, targetsOf, empty]

/-- The vertices decide where instructions are and which of them have slots. -/
theorem Consistent.of_vertex {p' : Program} (hp : p.Consistent)
    (hvertex : ∀ n, p'.vertexOf n = p.vertexOf n)
    (hmirror : ∀ m n, (p'.predecessorsOf n).count m = (p'.targetsOf m).count n) :
    p'.Consistent := by
  have hold : ∀ {n : Nat} {i' : Instruction}, p'.instructions[n]? = some i' →
      ∃ i, p.instructions[n]? = some i ∧ i.vertex = i'.vertex := by
    intro n i' hi'
    have hn := hvertex n
    unfold vertexOf at hn
    rw [hi', Option.map_some, eq_comm, Option.map_eq_some_iff] at hn
    exact hn
  refine ⟨fun {n i'} hi' => ?_, fun {n i'} hi' => ?_, hmirror⟩
  · obtain ⟨i, hi, hv⟩ := hold hi'
    exact (congrArg Prod.fst hv).symm.trans (hp.id hi)
  · obtain ⟨i, hi, hv⟩ := hold hi'
    have hop : i.operation = i'.operation := congrArg (·.2.1) hv
    have hslots : i.successors.isBranch = i'.successors.isBranch := congrArg (·.2.2) hv
    rw [← hslots, ← hop]
    exact hp.slots hi

theorem Consistent.push (hp : p.Consistent) (op : Operation) : (p.push op).Consistent := by
  have hget : ∀ n, (p.push op).instructions[n]? =
      if n = p.size then some (.ofOperation p.size op) else p.instructions[n]? :=
    fun n => Array.getElem?_push
  have htargets : (Instruction.ofOperation p.size op).targets = [] := by
    cases op <;> rfl
  have hlast : p.instructions[p.size]? = none := Array.getElem?_eq_none (Nat.le_refl _)
  refine ⟨fun {n i} hi => ?_, fun {n i} hi => ?_, fun m n => ?_⟩
  · rw [hget] at hi
    split_ifs at hi with hn
    · cases hi
      exact hn.symm
    · exact hp.id hi
  · rw [hget] at hi
    split_ifs at hi with hn
    · cases hi
      cases op <;> rfl
    · exact hp.slots hi
  -- the new instruction has no edges, as if it were not there
  · have hpreds : (p.push op).predecessorsOf n = p.predecessorsOf n := by
      unfold predecessorsOf
      rw [hget]
      split_ifs with hn
      · rw [hn, hlast]
        rfl
      · rfl
    have htargetsOf : (p.push op).targetsOf m = p.targetsOf m := by
      unfold targetsOf
      rw [hget]
      split_ifs with hm
      · simp [hm, hlast, htargets]
      · rfl
    rw [hpreds, htargetsOf, hp.mirror]

theorem Consistent.relink (hp : p.Consistent) {source target : Nat} {i i' : Instruction}
    {replaced : Option Nat} (hi : p.instructions[source]? = some i) (ht : target < p.size)
    (hr : i.Retargets target replaced i') :
    ∃ p', (p.modify source fun _ => i').relink source replaced target = (p', .ok ()) ∧
      p'.Consistent := by
  have hreplaced : ∀ old, replaced = some old → old < p.size := by
    intro old hold
    have hmem : old ∈ p.targetsOf source := targetsOf_eq hi ▸ hr.mem_targets old hold
    exact lt_size_of_mem_predecessorsOf (hp.mem_predecessorsOf_iff.2 hmem)
  -- the new instruction has the old predecessors, and its own targets
  have hpreds : ∀ n, (p.modify source fun _ => i').predecessorsOf n = p.predecessorsOf n := by
    intro n
    unfold predecessorsOf
    rw [getElem?_modify]
    split_ifs with hn
    · subst hn
      simp [hi, hr.predecessors]
    · rfl
  have htargets : ∀ m, (p.modify source fun _ => i').targetsOf m =
      if source = m then i'.targets else p.targetsOf m := by
    intro m
    unfold targetsOf
    rw [getElem?_modify]
    split_ifs with hm
    · subst hm
      simp [hi]
    · rfl
  obtain ⟨p', hrelink, hvertex', htargets', hcount'⟩ :=
    relink_spec (p := p.modify source fun _ => i') source (by simpa using ht)
      (by simpa using hreplaced)
  refine ⟨p', hrelink, hp.of_vertex (fun n => ?_) fun m n => ?_⟩
  · rw [hvertex', vertexOf_modify]
    intro i₁ hi₁
    cases hi.symm.trans hi₁
    exact hr.vertex
  · rw [hcount', htargets', hpreds, htargets, hp.mirror]
    by_cases hm : source = m
    · subst hm
      have hold : replaced.toList.count n = if replaced = some n then 1 else 0 := by
        cases replaced <;> simp [List.count_singleton]
      have hperm := hr.perm.count_eq n
      rw [List.count_append, List.count_cons, hold] at hperm
      simp only [and_true, if_true, beq_iff_eq, targetsOf_eq hi] at hperm ⊢
      by_cases hrep : replaced = some n
      -- the edge that is replaced was there, so taking one away is no truncated subtraction
      · have hpos : 0 < i.targets.count n := List.count_pos_iff.2 (hr.mem_targets n hrep)
        simp only [hrep, if_true] at hperm ⊢
        omega
      · simp only [hrep, if_false] at hperm ⊢
        omega
    · simp [hm]

/-- **Changing the edges of one instruction keeps a program consistent.**  It fails before anything
has changed, or not at all. -/
theorem Consistent.connect (hp : p.Consistent) {source target : Nat}
    {set : Instruction → Except Error (Option Nat × Instruction)}
    (hset : ∀ i replaced i', set i = .ok (replaced, i') → i.Retargets target replaced i') :
    (∃ e, p.connect source target set = (p, .error e)) ∨
      ∃ p', p.connect source target set = (p', .ok ()) ∧ p'.Consistent := by
  unfold Program.connect
  split
  · exact .inl ⟨_, rfl⟩
  · exact .inl ⟨_, rfl⟩
  · rename_i j i htarget hsource
    split
    · exact .inl ⟨_, rfl⟩
    · rename_i replaced i' hi'
      exact .inr (hp.relink (instruction_eq_ok_iff.1 hsource)
        (lt_size (instruction_eq_ok_iff.1 htarget)) (hset i replaced i' hi'))

theorem Consistent.link (hp : p.Consistent) (source target : Nat) :
    (∃ e, p.link source target = (p, .error e)) ∨
      ∃ p', p.link source target = (p', .ok ()) ∧ p'.Consistent := by
  refine hp.connect fun i replaced i' h => ?_
  have hadd : i.addTarget target = (replaced, i') := Except.ok.inj h
  have hr := i.retargets_addTarget target
  rwa [hadd] at hr

theorem Consistent.linkBranch (hp : p.Consistent) (source : Nat) (taken : Bool) (target : Nat) :
    (∃ e, p.linkBranch source taken target = (p, .error e)) ∨
      ∃ p', p.linkBranch source taken target = (p', .ok ()) ∧ p'.Consistent :=
  hp.connect fun _ _ _ h => Instruction.retargets_setBranchTarget h

theorem Consistent.sequence (hp : p.Consistent) (ids : List Nat) :
    (p.sequence ids).1.Consistent := by
  fun_induction Program.sequence p ids with
  | case1 p source target rest p' hlink ih =>
    rcases hp.link source target with ⟨e, h⟩ | ⟨p₁, h, hp₁⟩
    · rw [h] at hlink
      cases hlink
    · rw [h] at hlink
      cases hlink
      exact ih hp₁
  | case2 p source target rest p' e hlink =>
    rcases hp.link source target with ⟨e', h⟩ | ⟨p₁, h, hp₁⟩
    · rw [h] at hlink
      cases hlink
      exact hp
    · rw [h] at hlink
      cases hlink
  | case3 p => exact hp

/-- **Every edit keeps a program consistent**, also when it fails. -/
theorem Consistent.edit (hp : p.Consistent) (e : Edit) : (p.edit e).1.Consistent := by
  cases e with
  | push op => exact hp.push op
  | link source target =>
    rcases hp.link source target with ⟨e, h⟩ | ⟨p', h, hp'⟩
    · simpa [Program.edit, h] using hp
    · simpa [Program.edit, h] using hp'
  | linkBranch source taken target =>
    rcases hp.linkBranch source taken target with ⟨e, h⟩ | ⟨p', h, hp'⟩
    · simpa [Program.edit, h] using hp
    · simpa [Program.edit, h] using hp'
  | sequence ids => exact hp.sequence ids

theorem Consistent.edits (hp : p.Consistent) (es : List Edit) : (p.edits es).Consistent :=
  List.foldlRecOn (motive := Consistent) es _ hp fun _ hp e _ => hp.edit e

/-- The program is what edits make of the empty program, whether they succeed or not. -/
def Built (p : Program) : Prop := ∃ es, Program.empty.edits es = p

/-- **Programs that are built by edits are consistent.** -/
theorem Built.consistent (h : p.Built) : p.Consistent := by
  obtain ⟨es, rfl⟩ := h
  exact consistent_empty.edits es

end Program

end Dataflow

import Dataflow.Proofs.Flowgraph.Path

/-!
# What edits leave behind

Edits can fail, and programs are built by edits whether these fail or not.  An edit of one edge that
fails has changed nothing.  That is so although it changes the source of the edge before it looks
for the target that is replaced: in a consistent program this target is there.  A sequence of edges
that fails has linked the pairs before the first pair that cannot be linked, and nothing else
(`Program.Consistent.sequence_cases`).

`Program.built_consistent_atomic` puts this together with the consistency of all programs that are
built by edits.
-/

namespace Dataflow

/-- The edits that add edges one by one. -/
def Edit.links (edges : List (Nat × Nat)) : List Edit := edges.map fun e => .link e.1 e.2

namespace Program

variable {p : Program}

/-! ### Building by links -/

theorem build_links_nil (p : Program) : p.build (Edit.links []) = .ok p := rfl

theorem build_links_cons {p' : Program} {source target : Nat}
    (h : p.link source target = (p', .ok ())) (edges : List (Nat × Nat)) :
    p.build (Edit.links ((source, target) :: edges)) = p'.build (Edit.links edges) := by
  have hedit : p.edit (.link source target) = (p', .ok none) := by
    simp only [Program.edit, h]
    rfl
  simp only [Edit.links, List.map_cons, Program.build, hedit]

/-- **A sequence of edges links pair after pair.**  It succeeds if all links do.  Otherwise it
leaves the program with which the first failing link failed. -/
theorem Consistent.sequence_cases (hp : p.Consistent) (ids : List Nat) :
    (∃ p', p.sequence ids = (p', .ok ()) ∧ p.build (Edit.links (ids.zip ids.tail)) = .ok p') ∨
    ∃ p' e before source target after, p.sequence ids = (p', .error e) ∧
      ids.zip ids.tail = before ++ (source, target) :: after ∧
      p.build (Edit.links before) = .ok p' ∧ p'.link source target = (p', .error e) := by
  fun_induction Program.sequence p ids with
  | case1 p source target rest p' hlink ih =>
    have hp' : p'.Consistent := by
      rcases hp.link source target with ⟨e, h⟩ | ⟨p₁, h, hp₁⟩
      · rw [h] at hlink
        cases hlink
      · rw [h] at hlink
        cases hlink
        exact hp₁
    rcases ih hp' with ⟨p₂, hseq, hbuild⟩ | ⟨p₂, e, before, s, t, after, hseq, hpairs, hbuild, herr⟩
    · refine .inl ⟨p₂, hseq, ?_⟩
      exact (build_links_cons hlink _).trans hbuild
    · refine .inr ⟨p₂, e, (source, target) :: before, s, t, after, hseq, ?_, ?_, herr⟩
      · exact congrArg ((source, target) :: ·) hpairs
      · exact (build_links_cons hlink _).trans hbuild
  | case2 p source target rest p' e hlink =>
    -- the first pair fails, and has changed nothing
    rcases hp.link source target with ⟨e', h⟩ | ⟨p₁, h, hp₁⟩
    · rw [h] at hlink
      cases hlink
      exact .inr ⟨p, e, [], source, target, _, rfl, rfl, build_links_nil p, h⟩
    · rw [h] at hlink
      cases hlink
  | case3 ids p hshort =>
    refine .inl ⟨p, rfl, ?_⟩
    cases ids with
    | nil => exact build_links_nil p
    | cons source ids =>
      cases ids with
      | nil => exact build_links_nil p
      | cons target rest => exact absurd rfl (hshort source target rest)

/-! ### Programs built by edits -/

/-- Edges begin and end at instructions. -/
theorem Consistent.ends_lt_size (hp : p.Consistent) {n : Nat} {i : Instruction}
    (hi : p.instructions[n]? = some i) :
    (∀ t ∈ i.targets, t < p.size) ∧ ∀ m ∈ i.predecessors, m < p.size := by
  refine ⟨fun t ht => ?_, fun m hm => ?_⟩
  · exact hp.target_lt_size ((edge_iff hi).2 ht)
  · exact ((hp.edge_iff_mem_predecessors hi).2 hm).lt_size

/-- Exactly the branches have slots. -/
theorem Consistent.exists_slots_iff (hp : p.Consistent) {n : Nat} {i : Instruction}
    (hi : p.instructions[n]? = some i) :
    (∃ onTrue onFalse, i.successors = .branch onTrue onFalse) ↔
      ∃ condition, i.operation = .branch condition := by
  have hslots := hp.slots hi
  constructor
  · rintro ⟨onTrue, onFalse, h⟩
    rw [h] at hslots
    cases hop : i.operation with
    | branch condition => exact ⟨condition, rfl⟩
    | binary | move | alloca | load | store | phi | read =>
      rw [hop] at hslots
      cases hslots
  · rintro ⟨condition, h⟩
    rw [h] at hslots
    cases hsucc : i.successors with
    | branch onTrue onFalse => exact ⟨onTrue, onFalse, rfl⟩
    | sequential ts =>
      rw [hsucc] at hslots
      cases hslots

/-- **Programs that are built by edits stay consistent, and single edits of edges are all or
nothing.**  The id of an instruction is its index, exactly the branches have slots, edges begin and
end at instructions, and each edge is recorded as often at its target as at its source.  An edit of
one edge that fails leaves the program as it was.  A sequence of edges that fails leaves the program
that results from linking the pairs before the first one that fails. -/
theorem built_consistent_atomic (hp : p.Built) :
    (∀ (n : Nat) (i : Instruction), p.instructions[n]? = some i → i.id = n ∧
      ((∃ onTrue onFalse, i.successors = .branch onTrue onFalse) ↔
        ∃ condition, i.operation = .branch condition) ∧
      (∀ t ∈ i.targets, t < p.size) ∧ ∀ m ∈ i.predecessors, m < p.size) ∧
    (∀ (m n : Nat) (i j : Instruction), p.instructions[m]? = some i →
      p.instructions[n]? = some j → j.predecessors.count m = i.targets.count n) ∧
    (∀ source target e, (p.link source target).2 = .error e → (p.link source target).1 = p) ∧
    (∀ source taken target e, (p.linkBranch source taken target).2 = .error e →
      (p.linkBranch source taken target).1 = p) ∧
    ∀ ids e, (p.sequence ids).2 = .error e → ∃ before source target after,
      ids.zip ids.tail = before ++ (source, target) :: after ∧
      p.build (Edit.links before) = .ok (p.sequence ids).1 ∧
      (p.sequence ids).1.link source target = ((p.sequence ids).1, .error e) := by
  have hc := hp.consistent
  refine ⟨fun n i hi => ?_, fun m n i j hi hj => ?_, fun source target e he => ?_,
    fun source taken target e he => ?_, fun ids e he => ?_⟩
  · exact ⟨hc.id hi, hc.exists_slots_iff hi, hc.ends_lt_size hi⟩
  · rw [← predecessorsOf_eq hj, ← targetsOf_eq hi]
    exact hc.mirror m n
  · rcases hc.link source target with ⟨e', h⟩ | ⟨p', h, -⟩
    · rw [h]
    · rw [h] at he
      cases he
  · rcases hc.linkBranch source taken target with ⟨e', h⟩ | ⟨p', h, -⟩
    · rw [h]
    · rw [h] at he
      cases he
  · rcases hc.sequence_cases ids with
      ⟨p', hseq, -⟩ | ⟨p', e', before, source, target, after, hseq, hpairs, hbuild, herr⟩
    · rw [hseq] at he
      cases he
    · rw [hseq] at he ⊢
      cases he
      exact ⟨before, source, target, after, hpairs, hbuild, herr⟩

/-- A branch whose slots lead to one target at first, then one of them to the branch itself, and an
instruction with two edges to itself; some of the edits fail. -/
def doubleEdges : Program := Program.empty.edits
  [.push (.branch "c"), .push (.read "x"), .linkBranch 0 true 1, .linkBranch 0 false 1, .link 1 1,
    .linkBranch 1 true 0, .link 1 1, .linkBranch 0 true 0, .link 0 5]

/-- The second pair of the sequence fails, after the first has replaced the edge that is left from
the branch to the other instruction. -/
theorem built_consistent_atomic_doubleEdges : doubleEdges.Built ∧
    (∃ i j, doubleEdges.instructions[1]? = some i ∧ doubleEdges.instructions[1]? = some j ∧
      i.targets = [1, 1] ∧ j.predecessors.count 1 = i.targets.count 1) ∧
    (doubleEdges.link 0 5).2 = .error (.instructionNotFound 5) ∧
    (doubleEdges.link 0 5).1 = doubleEdges ∧
    (doubleEdges.linkBranch 1 true 0).2 = .error (.notABranch 1) ∧
    (doubleEdges.linkBranch 1 true 0).1 = doubleEdges ∧
    (doubleEdges.sequence [0, 0, 5, 1]).2 = .error (.instructionNotFound 5) ∧
    ∃ before source target after,
      [(0, 0), (0, 5), (5, 1)] = before ++ (source, target) :: after ∧
      doubleEdges.build (Edit.links before) = .ok (doubleEdges.sequence [0, 0, 5, 1]).1 ∧
      (doubleEdges.sequence [0, 0, 5, 1]).1.link source target =
        ((doubleEdges.sequence [0, 0, 5, 1]).1, .error (.instructionNotFound 5)) := by
  have hbuilt : doubleEdges.Built := ⟨_, rfl⟩
  obtain ⟨-, hmirror, hlink, hbranch, hsequence⟩ := built_consistent_atomic hbuilt
  have htargets : doubleEdges.instructions[1]?.map (·.targets) = some [1, 1] := by decide
  obtain ⟨i, hi, hloops⟩ := Option.map_eq_some_iff.1 htargets
  have hno : (doubleEdges.link 0 5).2 = .error (.instructionNotFound 5) := by decide
  have hslot : (doubleEdges.linkBranch 1 true 0).2 = .error (.notABranch 1) := by decide
  have hfail : (doubleEdges.sequence [0, 0, 5, 1]).2 = .error (.instructionNotFound 5) := by decide
  exact ⟨hbuilt, ⟨i, i, hi, hi, hloops, hmirror 1 1 i i hi hi⟩, hno, hlink 0 5 _ hno, hslot,
    hbranch 1 true 0 _ hslot, hfail, hsequence [0, 0, 5, 1] _ hfail⟩

end Program

end Dataflow

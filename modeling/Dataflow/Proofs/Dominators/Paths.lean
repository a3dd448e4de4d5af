import Dataflow.Proofs.Contract
import Dataflow.Proofs.Flowgraph.Path
import Dataflow.Proofs.Point
import Dataflow.Proofs.Solver.FixedPoint

/-!
# Dominators are about paths

An instruction dominates another if it is on every path from a root to that one.  The sets of the
analysis are exactly that, and what no root reaches is left with the universal set
(`Dominators.solve_iff_path`).

The sets tell what dominates by what has been ruled out, and it is the paths around an instruction
that rule it out.  So the argument is about the complement: the fact of an instruction rules out `d`
exactly if a path from a root avoids `d` (`Program.Avoided`), and it rules out anything at all
exactly if there is a path from a root (`Program.Reached`).  Intersections then become unions, as in
the other analyses (`follows_of_eval`).
-/

namespace Dataflow

open Solver Equation

namespace Program

/-- The entry of the program, or an instruction without predecessors. -/
def IsRoot (p : Program) (n : Nat) : Prop :=
  ∃ i, p.instructions[n]? = some i ∧ (n = 0 ∨ i.predecessors = [])

/-- Some path leads from a root to `n`. -/
def Reached (p : Program) (n : Nat) : Prop := ∃ root path, p.IsRoot root ∧ p.IsPath root path n

/-- Some path leads from a root to `n` and does not go through `d`. -/
def Avoided (p : Program) (d n : Nat) : Prop :=
  ∃ root path, p.IsRoot root ∧ p.IsPath root path n ∧ d ∉ path

variable {p : Program} {d m n : Nat}

theorem IsRoot.reached (h : p.IsRoot n) : p.Reached n := ⟨n, [n], h, .single n⟩

theorem IsRoot.avoided (h : p.IsRoot n) (hd : d ≠ n) : p.Avoided d n :=
  ⟨n, [n], h, .single n, by simpa using hd⟩

theorem Reached.edge (h : p.Reached m) (hedge : p.Edge m n) : p.Reached n := by
  obtain ⟨root, path, hroot, hpath⟩ := h
  exact ⟨root, path ++ [n], hroot, hpath.concat hedge⟩

theorem Avoided.edge (h : p.Avoided d m) (hedge : p.Edge m n) (hd : d ≠ n) : p.Avoided d n := by
  obtain ⟨root, path, hroot, hpath, havoid⟩ := h
  exact ⟨root, path ++ [n], hroot, hpath.concat hedge, by simp [havoid, hd]⟩

end Program

/-! ### Sets -/

namespace DominatorSet

variable {s t : DominatorSet} {d n : Nat}

/-- The fact says that `d` does not dominate. -/
def RulesOut : DominatorSet → Nat → Prop
  | universal, _ => False
  | only ids, d => d ∉ ids

theorem rulesOut_inter : (s.inter t).RulesOut d ↔ s.RulesOut d ∨ t.RulesOut d := by
  cases s <;> cases t <;> simp [inter, RulesOut, Std.ExtTreeSet.mem_inter_iff, imp_iff_not_or]

theorem rulesOut_insert : (s.insert n).RulesOut d ↔ d ≠ n ∧ s.RulesOut d := by
  cases s <;> simp [insert, RulesOut, @eq_comm _ n d]

theorem rulesOut_singleton : (singleton n).RulesOut d ↔ d ≠ n := by
  simp [singleton, RulesOut, @eq_comm _ n d]

theorem inter_ne_universal : s.inter t ≠ universal ↔ s ≠ universal ∨ t ≠ universal := by
  cases s <;> cases t <;> simp [inter]

theorem insert_ne_universal : s.insert n ≠ universal ↔ s ≠ universal := by
  cases s <;> simp [insert]

end DominatorSet

namespace Dominators

theorem dominatorName_inj {m n : Nat} : dominatorName m = dominatorName n ↔ m = n :=
  append_repr_inj "D_"

/-! ### Equations -/

variable {p : Program} {env : Environment DominatorSet}

/-- The equation of an instruction in a program. -/
abbrev equationOf (p : Program) (i : Instruction) : DominatorEquation :=
  .ofInstruction (p.entry?.map (·.id) == some i.id) i

theorem mem_equations {e : DominatorEquation} :
    e ∈ equations p ↔ ∃ i ∈ p.instructions, equationOf p i = e :=
  Array.mem_map

theorem nodup_names (hp : p.Consistent) : (names (equations p)).Nodup := by
  have hnames : names (equations p) = (p.instructions.toList.map (·.id)).map dominatorName := by
    simp only [names, equations, Array.toList_map, List.map_map]
    rfl
  rw [hnames, hp.ids_eq_range]
  exact List.nodup_range.map fun _ _ => dominatorName_inj.1

theorem isRoot_equationOf (hp : p.Consistent) {n : Nat} {i : Instruction}
    (hi : p.instructions[n]? = some i) : (equationOf p i).isRoot = true ↔ p.IsRoot n := by
  obtain ⟨j, hj⟩ := Program.exists_instruction (Nat.zero_lt_of_lt (Program.lt_size hi))
  have hentry : p.entry?.map (·.id) = some 0 := by
    show p.instructions[0]?.map (·.id) = some 0
    rw [hj, Option.map_some, hp.id hj]
  have hroot : p.IsRoot n ↔ n = 0 ∨ i.predecessors = [] := by simp [Program.IsRoot, hi]
  rw [hroot, equationOf, hentry, hp.id hi]
  by_cases hn : n = 0
  · simp [hn, DominatorEquation.isRoot, DominatorEquation.ofInstruction]
  · simp [hn, Ne.symm hn, DominatorEquation.isRoot, DominatorEquation.ofInstruction]

/-- The equation of an instruction that is no root reads the facts of its predecessors. -/
theorem deps_equationOf {i : Instruction} (h : ¬ (equationOf p i).isRoot = true) :
    (equationOf p i).deps = i.predecessors.map dominatorName := by
  simp only [DominatorEquation.isRoot, DominatorEquation.deps, equationOf,
    DominatorEquation.ofInstruction] at h ⊢
  split_ifs at h ⊢
  · exact absurd rfl h
  · rfl

/-- The fact `v` follows for `n` from the facts of its predecessors.  It rules out anything, or one
instruction in particular, if `n` is a root or the fact of a predecessor does; but it never rules
out `n` itself. -/
structure Follows (p : Program) (env : Environment DominatorSet) (n : Nat) (v : DominatorSet) :
    Prop where
  ne_universal : v ≠ .universal ↔ p.IsRoot n ∨
    ∃ m, p.Edge m n ∧ ∃ w, env[dominatorName m]? = some w ∧ w ≠ .universal
  rulesOut : ∀ d, v.RulesOut d ↔ d ≠ n ∧ (p.IsRoot n ∨
    ∃ m, p.Edge m n ∧ ∃ w, env[dominatorName m]? = some w ∧ w.RulesOut d)

theorem follows_of_eval (hp : p.Consistent) {n : Nat} {i : Instruction}
    (hi : p.instructions[n]? = some i) {v : DominatorSet}
    (h : Equation.eval (equationOf p i) env = .ok v) : Follows p env n v := by
  have hid : (equationOf p i).id = n := hp.id hi
  have hroot := isRoot_equationOf hp hi
  change DominatorEquation.eval (equationOf p i) env = .ok v at h
  unfold DominatorEquation.eval at h
  rw [hid] at h
  split_ifs at h with he
  · cases h
    have hn : p.IsRoot n := hroot.1 he
    refine ⟨by simp [hn, DominatorSet.singleton], fun d => ?_⟩
    rw [DominatorSet.rulesOut_singleton]
    simp [hn]
  · have hn : ¬ p.IsRoot n := fun h => he (hroot.2 h)
    obtain ⟨w, hw, rfl⟩ := map_eq_ok_iff.1 h
    rw [deps_equationOf he] at hw
    have hedge : ∀ Q : DominatorSet → Prop,
        (∃ x ∈ i.predecessors.map dominatorName, ∃ u, env[x]? = some u ∧ Q u) ↔
          ∃ m, p.Edge m n ∧ ∃ u, env[dominatorName m]? = some u ∧ Q u := by
      intro Q
      simp only [List.mem_map, exists_exists_and_eq_and, hp.edge_iff_mem_predecessors hi]
    refine ⟨?_, fun d => ?_⟩
    · rw [DominatorSet.insert_ne_universal, Environment.gather_iff (Q := (· ≠ .universal))
        (fun h => h rfl) (fun _ _ => DominatorSet.inter_ne_universal) hw, hedge]
      simp [hn]
    · rw [DominatorSet.rulesOut_insert, Environment.gather_iff (Q := (·.RulesOut d))
        (fun h => h) (fun _ _ => DominatorSet.rulesOut_inter) hw, hedge]
      simp [hn]

variable {strategy : Strategy} {options : Options} {solution : Solution DominatorSet}

/-- **A solution has a fact for each instruction, which follows from those of its predecessors.** -/
theorem exists_follows (hp : p.Consistent) (h : solve p strategy options = .ok solution) {n : Nat}
    (hn : n < p.size) : ∃ v, solution.environment[dominatorName n]? = some v ∧
      Follows p solution.environment n v := by
  have hsat := satisfied_of_solve (fun e _ => e.isLocal)
    (sharedNamesRead_of_nodup (nodup_names hp)) h
  obtain ⟨i, hi⟩ := Program.exists_instruction hn
  obtain ⟨v, heval, hget⟩ :=
    hsat (equationOf p i) (mem_equations.2 ⟨i, Array.mem_of_getElem? hi, rfl⟩)
  exact ⟨v, hp.id hi ▸ hget, follows_of_eval hp hi heval⟩

/-! ### Paths -/

/-- What an analysis has found by then: all that is ruled out is ruled out by a path. -/
def PathsAt (p : Program) (name : String) (v : DominatorSet) : Prop :=
  ∀ n, name = dominatorName n →
    (v ≠ .universal → p.Reached n) ∧ ∀ d, v.RulesOut d → p.Avoided d n

theorem Follows.pathsAt {n : Nat} {v : DominatorSet}
    (henv : ∀ (name : String) w, env[name]? = some w → PathsAt p name w) (h : Follows p env n v) :
    PathsAt p (dominatorName n) v := by
  intro n' hn'
  obtain rfl := dominatorName_inj.1 hn'
  constructor
  · intro hv
    rcases h.ne_universal.1 hv with hroot | ⟨m, hedge, w, hw, hne⟩
    · exact hroot.reached
    · exact ((henv _ w hw m rfl).1 hne).edge hedge
  · intro d hd
    obtain ⟨hne, hroot | ⟨m, hedge, w, hw, hout⟩⟩ := (h.rulesOut d).1 hd
    · exact hroot.avoided hne
    · exact ((henv _ w hw m rfl).2 d hout).edge hedge hne

/-- There is a path for all that is ruled out. -/
theorem pathsAt_of_solve (hp : p.Consistent) (h : solve p strategy options = .ok solution)
    {n : Nat} {v : DominatorSet} (hv : solution.environment[dominatorName n]? = some v) :
    (v ≠ .universal → p.Reached n) ∧ ∀ d, v.RulesOut d → p.Avoided d n := by
  refine solve_invariant (Q := PathsAt p)
    (fun _ _ _ => ⟨fun h => absurd rfl h, fun _ => False.elim⟩)
    (fun e he env w henv hw => ?_) h hv n rfl
  obtain ⟨i, hmem, rfl⟩ := mem_equations.1 he
  obtain ⟨n, hi⟩ := Array.getElem?_of_mem hmem
  have hname : Equation.name (equationOf p i) = dominatorName n := congrArg dominatorName (hp.id hi)
  rw [hname]
  exact (follows_of_eval hp hi hw).pathsAt henv

theorem lt_size_of_isRoot {n : Nat} (h : p.IsRoot n) : n < p.size := by
  obtain ⟨i, hi, -⟩ := h
  exact Program.lt_size hi

/-- What a root reaches has been found to be reached. -/
theorem ne_universal_of_reached (hp : p.Consistent) (h : solve p strategy options = .ok solution)
    {n : Nat} (hn : p.Reached n) :
    ∃ v, solution.environment[dominatorName n]? = some v ∧ v ≠ .universal := by
  obtain ⟨root, path, hroot, hpath⟩ := hn
  refine hpath.invariant
    (P := fun n => ∃ v, solution.environment[dominatorName n]? = some v ∧ v ≠ .universal) ?_ ?_
  · obtain ⟨v, hv, hfollows⟩ := exists_follows hp h (lt_size_of_isRoot hroot)
    exact ⟨v, hv, hfollows.ne_universal.2 (.inl hroot)⟩
  · intro m n hedge _ hm
    obtain ⟨v, hv, hfollows⟩ := exists_follows hp h (hp.target_lt_size hedge)
    exact ⟨v, hv, hfollows.ne_universal.2 (.inr ⟨m, hedge, hm⟩)⟩

/-- What is avoided on the way to an instruction has been ruled out for it. -/
theorem rulesOut_of_avoided (hp : p.Consistent) (h : solve p strategy options = .ok solution)
    {d n : Nat} (hd : p.Avoided d n) :
    ∃ v, solution.environment[dominatorName n]? = some v ∧ v.RulesOut d := by
  obtain ⟨root, path, hroot, hpath, havoid⟩ := hd
  have hne : ∀ {m}, m ∈ path → d ≠ m := by
    rintro m hm rfl
    exact havoid hm
  refine hpath.invariant
    (P := fun n => ∃ v, solution.environment[dominatorName n]? = some v ∧ v.RulesOut d) ?_ ?_
  · obtain ⟨v, hv, hfollows⟩ := exists_follows hp h (lt_size_of_isRoot hroot)
    exact ⟨v, hv, (hfollows.rulesOut d).2 ⟨hne hpath.head_mem, .inl hroot⟩⟩
  · intro m n hedge hn hm
    obtain ⟨v, hv, hfollows⟩ := exists_follows hp h (hp.target_lt_size hedge)
    exact ⟨v, hv, (hfollows.rulesOut d).2 ⟨hne hn, .inr ⟨m, hedge, hm⟩⟩⟩

/-- **Dominators equal their definition by paths.**  The set of an instruction that a root reaches
holds exactly the instructions on all paths from roots to it; the set of any other instruction is
universal. -/
theorem solve_iff_path (hp : p.Built) (h : solve p strategy options = .ok solution) {n : Nat}
    (hn : n < p.size) :
    (p.Reached n → ∃ ids, solution.environment[dominatorName n]? = some (.only ids) ∧
      ∀ d, d ∈ ids ↔ ∀ root path, p.IsRoot root → p.IsPath root path n → d ∈ path) ∧
    (¬ p.Reached n → solution.environment[dominatorName n]? = some .universal) := by
  obtain ⟨v, hv, -⟩ := exists_follows hp.consistent h hn
  obtain ⟨hreached, havoided⟩ := pathsAt_of_solve hp.consistent h hv
  constructor
  · intro hn
    obtain ⟨w, hw, hne⟩ := ne_universal_of_reached hp.consistent h hn
    cases hv.symm.trans hw
    cases v with
    | universal => exact absurd rfl hne
    | only ids =>
      refine ⟨ids, hv, fun d => ⟨fun hd root path hroot hpath => ?_, fun hd => ?_⟩⟩
      · by_contra havoid
        obtain ⟨w, hw, hout⟩ :=
          rulesOut_of_avoided hp.consistent h ⟨root, path, hroot, hpath, havoid⟩
        cases hv.symm.trans hw
        exact hout hd
      · by_contra hout
        obtain ⟨root, path, hroot, hpath, havoid⟩ := havoided d hout
        exact havoid (hd root path hroot hpath)
  · intro hn
    rw [hv, Option.some.injEq]
    by_contra hne
    exact hn (hreached hne)

/-- The entry is in a loop and leads to an instruction with a loop of its own, to which a second
root leads as well, and a cycle that no root reaches. -/
def tangle : Program := Program.empty.edits
  [.push (.read "a"), .push (.branch "a"), .push (.read "b"), .push (.read "c"), .push (.read "d"),
    .push (.read "e"), .sequence [0, 1, 0], .linkBranch 1 true 2, .sequence [2, 2], .link 3 2,
    .sequence [4, 5, 4], .link 5 2]

/-- The dominators of the instruction to which all these lead. -/
theorem solve_iff_path_tangle : tangle.Built ∧ 2 < tangle.size ∧ tangle.Reached 2 ∧
    ∃ solution, solve tangle .worklist {} = .ok solution ∧ ∃ ids,
      solution.environment[dominatorName 2]? = some (.only ids) ∧
      ∀ d, d ∈ ids ↔ ∀ root path, tangle.IsRoot root → tangle.IsPath root path 2 → d ∈ path := by
  have hbuilt : tangle.Built := ⟨_, rfl⟩
  have hsize : 2 < tangle.size := by decide
  have hedge : tangle.Edge 3 2 := by
    unfold Program.Edge
    decide
  have hreached : tangle.Reached 2 :=
    ⟨3, [3, 2], ⟨_, rfl, .inr rfl⟩, .cons hedge (.single 2)⟩
  obtain ⟨solution, h⟩ : ∃ solution, solve tangle .worklist {} = .ok solution :=
    exists_eq_ok (by decide +kernel)
  exact ⟨hbuilt, hsize, hreached, solution, h, (solve_iff_path hbuilt h hsize).1 hreached⟩

end Dominators

end Dataflow

import Dataflow.Proofs.Constants.Soundness
import Dataflow.Proofs.Definitions.Paths
import Dataflow.Proofs.Dominators.Paths
import Dataflow.Proofs.Liveness.Paths
import Dataflow.Proofs.Solver.Height

/-!
# The analyses end

All analyses but the one of references come down to a single system of equations, and its facts
cannot rise for ever: sets are bounded by what the program mentions, the dominators of a point start
with all instructions and end with at least one, and a constant fact rises at most twice.  So each
of the analyses succeeds within a budget that can be read off the program
(`Program.analyses_succeed`).
-/

namespace Dataflow

open Solver Equation

/-! ### The heights of the domains -/

/-- Sets within a finite one rise as often as that has elements. -/
theorem height_sets {α : Type} {cmp : α → α → Ordering} [Std.TransCmp cmp] [Std.LawfulEqCmp cmp]
    [Domain (Std.ExtTreeSet α cmp)] [Domain.ByInclusion α cmp] (U : Finset α) {height : Nat}
    (h : U.card ≤ height) :
    Height (fun s : Std.ExtTreeSet α cmp => ∀ a ∈ s, a ∈ U)
      (fun s => (U.filter (· ∉ s)).card) height where
  initial := fun a ha => absurd ha Domain.notMem_initial
  room_le := fun _ => (Finset.card_filter_le U _).trans h
  rise := by
    intro s t _ ht hle hne
    rw [Domain.le_iff_forall_mem] at hle
    obtain ⟨a, hat, has⟩ : ∃ a ∈ t, a ∉ s := by
      by_contra hno
      push Not at hno
      exact hne (Std.ExtTreeSet.ext_mem fun a => ⟨hle a, hno a⟩)
    have hstrict : ∀ b, b ∉ t → b ∉ s := fun b hbt hbs => hbt (hle b hbs)
    exact card_filter_lt_card_filter hstrict (ht a hat) has (not_not.2 hat)

/-- How often a fact about constants can still rise. -/
def Flat.room : Flat → Nat
  | undef => 2
  | constant _ => 1
  | nac => 0

theorem Flat.height : Height (fun _ : Flat => True) Flat.room 2 where
  initial := trivial
  room_le {v} _ := by cases v <;> simp [room]
  rise {v w} _ _ hle hne := by
    rcases Flat.le_iff.1 hle with rfl | rfl | rfl
    · cases w <;> simp_all [room]
    · cases v <;> simp_all [room]
    · exact absurd rfl hne

namespace DominatorSet

/-- How often a fact about dominators among the first `n` instructions can still rise. -/
def room (n : Nat) : DominatorSet → Nat
  | universal => n
  | only ids => ((Finset.range n).filter (· ∈ ids)).card - 1

/-- Unless the fact rules out nothing, it leaves one of the first `n` instructions, and rules out
all that come after them. -/
def Within (n : Nat) (v : DominatorSet) : Prop :=
  v ≠ universal → (∀ d, n ≤ d → v.RulesOut d) ∧ ∃ d < n, ¬ v.RulesOut d

theorem height (n : Nat) : Height (Within n) (room n) n where
  initial := fun h => absurd rfl h
  room_le {v} _ := by
    cases v with
    | universal => exact le_refl n
    | only ids =>
      have hcard := Finset.card_filter_le (Finset.range n) (· ∈ ids)
      rw [Finset.card_range] at hcard
      exact (Nat.sub_le _ 1).trans hcard
  rise {v w} hv hw hle hne := by
    cases w with
    | universal =>
      cases v with
      | universal => exact absurd rfl hne
      | only s => exact absurd hle (not_only_le_universal s)
    | only t =>
      -- a set that is left with one instruction counts as zero, hence it must not be empty
      obtain ⟨-, d, hd, hleft⟩ := hw (by simp)
      have hdt : d ∈ (Finset.range n).filter (· ∈ t) :=
        Finset.mem_filter.2 ⟨Finset.mem_range.2 hd, not_not.1 hleft⟩
      have hpos := Finset.card_pos.2 ⟨d, hdt⟩
      cases v with
      | universal =>
        have hcard := Finset.card_filter_le (Finset.range n) (· ∈ t)
        rw [Finset.card_range] at hcard
        show ((Finset.range n).filter (· ∈ t)).card - 1 < n
        omega
      | only s =>
        rw [only_le_only] at hle
        obtain ⟨a, has, hat⟩ : ∃ a ∈ s, a ∉ t := by
          by_contra hno
          push Not at hno
          exact hne (congrArg only (Std.ExtTreeSet.ext_mem fun a => ⟨hno a, hle a⟩))
        have han : a < n := by
          by_contra hge
          exact (hv (by simp)).1 a (Nat.le_of_not_lt hge) has
        have hlt : ((Finset.range n).filter (· ∈ t)).card <
            ((Finset.range n).filter (· ∈ s)).card :=
          card_filter_lt_card_filter hle (Finset.mem_range.2 han) has hat
        show ((Finset.range n).filter (· ∈ t)).card - 1 < ((Finset.range n).filter (· ∈ s)).card - 1
        omega

end DominatorSet

/-! ### Counting in programs -/

namespace Program

variable {p : Program}

/-- The number of entries in the lists of predecessors. -/
def edgeCount (p : Program) : Nat := (p.instructions.toList.map (·.predecessors.length)).sum

/-- The variables that some instruction reads. -/
def usedVariables (p : Program) : Finset String :=
  (p.instructions.toList.flatMap (·.operation.operands)).toFinset

/-- The definitions that the instructions make. -/
def madeDefinitions (p : Program) : Finset Definition :=
  (p.instructions.toList.filterMap fun i =>
    i.operation.definition.map fun x => (⟨x, i.id⟩ : Definition)).toFinset

theorem mem_usedVariables {x : String} :
    x ∈ p.usedVariables ↔ ∃ i ∈ p.instructions, x ∈ i.operation.operands := by
  simp [usedVariables]

theorem mem_madeDefinitions {d : Definition} : d ∈ p.madeDefinitions ↔
    ∃ i ∈ p.instructions, i.id = d.site ∧ i.operation.definition = some d.name := by
  obtain ⟨x, site⟩ := d
  simp only [madeDefinitions, List.mem_toFinset, List.mem_filterMap, Array.mem_toList_iff,
    Option.map_eq_some_iff, Definition.mk.injEq]
  constructor
  · rintro ⟨i, hi, x, hx, rfl, rfl⟩
    exact ⟨i, hi, rfl, hx⟩
  · rintro ⟨i, hi, rfl, hx⟩
    exact ⟨i, hi, x, hx, rfl, rfl⟩

theorem card_madeDefinitions_le (p : Program) : p.madeDefinitions.card ≤ p.size :=
  (List.toFinset_card_le _).trans (List.length_filterMap_le _ _)

theorem sum_map_instructions {f : Instruction → Nat} {g : Nat → Nat}
    (h : ∀ {n : Nat} {i : Instruction}, p.instructions[n]? = some i → f i = g n) :
    (p.instructions.toList.map f).sum = ∑ n ∈ Finset.range p.size, g n := by
  rw [← Fin.sum_univ_eq_sum_range]
  refine (Fin.sum_univ_fun_getElem p.instructions.toList f).symm.trans ?_
  exact Finset.sum_congr rfl fun n _ => h (Array.getElem?_eq_getElem n.isLt)

/-- Every edge has an entry at both of its ends. -/
theorem Consistent.sum_targets_length (hp : p.Consistent) :
    (p.instructions.toList.map (·.targets.length)).sum = p.edgeCount := by
  have hlength : ∀ l : List Nat, (∀ a ∈ l, a < p.size) →
      l.length = ∑ n ∈ Finset.range p.size, l.count n := by
    intro l hl
    have hcount := Multiset.sum_count_eq_card (s := Finset.range p.size) (m := (l : Multiset Nat))
      fun a ha => Finset.mem_range.2 (hl a ha)
    simpa using hcount.symm
  calc (p.instructions.toList.map (·.targets.length)).sum
      = ∑ m ∈ Finset.range p.size, (p.targetsOf m).length :=
        sum_map_instructions fun hi => congrArg List.length (targetsOf_eq hi).symm
    _ = ∑ m ∈ Finset.range p.size, ∑ n ∈ Finset.range p.size, (p.targetsOf m).count n :=
        Finset.sum_congr rfl fun m _ => hlength _ fun n hn => hp.target_lt_size hn
    _ = ∑ n ∈ Finset.range p.size, ∑ m ∈ Finset.range p.size, (p.predecessorsOf n).count m := by
        rw [Finset.sum_comm]
        simp only [hp.mirror]
    _ = ∑ n ∈ Finset.range p.size, (p.predecessorsOf n).length :=
        (Finset.sum_congr rfl fun n _ => hlength _ fun m hm =>
          lt_size_of_mem_targetsOf (hp.mem_predecessorsOf_iff.1 hm)).symm
    _ = p.edgeCount :=
        (sum_map_instructions fun hi => congrArg List.length (predecessorsOf_eq hi).symm).symm

end Program

/-! ### The systems of the analyses -/

variable {p : Program}

namespace Reaching

theorem deps_ofOut (i : Instruction) :
    Equation.deps (ReachingEquation.ofOut i) = [inName i.id] := by
  show ReachingEquation.deps (ReachingEquation.ofOut i) = [inName i.id]
  unfold ReachingEquation.ofOut
  split <;> rfl

/-- The sets of reaching definitions hold only definitions that the program makes. -/
theorem confined (hp : p.Consistent) :
    Confined (equations p) ∅ fun s => ∀ d ∈ s, d ∈ p.madeDefinitions where
  wellPosed := wellPosed_of_fresh ((atPoints p).nodup_names hp) (fun e _ => e.isLocal)
    (fun e _ => e.monotone) fun _ _ => Std.ExtTreeMap.not_mem_empty
  total e _ := e.total
  known := by
    intro e he x hx
    obtain ⟨i, hmem, rfl | rfl⟩ := (atPoints p).mem_iff.1 he
    · obtain ⟨m, hm, rfl⟩ := List.mem_map.1 hx
      obtain ⟨n, hi⟩ := Array.getElem?_of_mem hmem
      have hedge := (hp.edge_iff_mem_predecessors hi).2 hm
      exact .inl ((atPoints p).outName_mem_names hp hedge.lt_size)
    · rw [deps_ofOut, List.mem_singleton] at hx
      subst hx
      exact .inl (name_mem_names ((atPoints p).mem_iff.2 ⟨i, hmem, .inl rfl⟩))
  facts := by simp
  keep := by
    intro e he env s henv hs d hd
    obtain ⟨i, hmem, rfl | rfl⟩ := (atPoints p).mem_iff.1 he
    · obtain ⟨m, -, t, ht, hd⟩ := (eval_ofIn hs d).1 hd
      exact henv _ t ht d hd
    · obtain ⟨before, hbefore, hiff⟩ := eval_ofOut hs
      rcases (hiff d).1 hd with hmade | ⟨-, hold⟩
      · exact Program.mem_madeDefinitions.2 ⟨i, hmem, hmade⟩
      · exact henv _ before hbefore d hold

theorem depCount_equations (p : Program) : depCount (equations p) = p.size + p.edgeCount := by
  have hout : ∀ i : Instruction, (deps (ReachingEquation.ofOut i)).length = 1 := by
    intro i
    rw [deps_ofOut, List.length_singleton]
  have hin : ∀ i : Instruction, (deps (ReachingEquation.ofIn i)).length = i.predecessors.length :=
    fun _ => List.length_map _
  simp [depCount, equations, Function.comp_def, hout, hin, Program.edgeCount, Program.size]

theorem succeedsWithin (hp : p.Consistent) :
    SucceedsWithin (solve p) (2 * p.size * (2 * p.size * p.size + 1))
      (2 * p.size + p.size * (p.size + p.edgeCount)) := by
  have h := (confined hp).succeedsWithin
    (height_sets p.madeDefinitions p.card_madeDefinitions_le) (depCount_equations p).le
  rw [(atPoints p).size_eq] at h
  exact h

end Reaching

namespace Dominators

/-- The equation of an instruction reads the facts of its predecessors, or of none of them. -/
theorem predecessors_equationOf (p : Program) (i : Instruction) :
    (equationOf p i).predecessors.Sublist i.predecessors := by
  simp only [equationOf, DominatorEquation.ofInstruction]
  split_ifs
  · exact List.nil_sublist _
  · exact .refl _

theorem dominatorName_mem_names (hp : p.Consistent) {n : Nat} (hn : n < p.size) :
    dominatorName n ∈ names (equations p) := by
  obtain ⟨i, hi⟩ := Program.exists_instruction hn
  rw [← hp.id hi]
  exact name_mem_names (mem_equations.2 ⟨i, Array.mem_of_getElem? hi, rfl⟩)

/-- The sets of dominators hold only instructions of the program, and at least one. -/
theorem confined (hp : p.Consistent) :
    Confined (equations p) ∅ (DominatorSet.Within p.size) where
  wellPosed := wellPosed_of_fresh (nodup_names hp) (fun e _ => e.isLocal) (fun e _ => e.monotone)
    fun _ _ => Std.ExtTreeMap.not_mem_empty
  total e _ := e.total
  known := by
    intro e he x hx
    obtain ⟨i, hmem, rfl⟩ := mem_equations.1 he
    obtain ⟨m, hm, rfl⟩ := List.mem_map.1 hx
    obtain ⟨n, hi⟩ := Array.getElem?_of_mem hmem
    have hedge : p.Edge m n :=
      (hp.edge_iff_mem_predecessors hi).2 ((predecessors_equationOf p i).subset hm)
    exact .inl (dominatorName_mem_names hp hedge.lt_size)
  facts := by simp
  keep := by
    intro e he env v henv hv hne
    obtain ⟨i, hmem, rfl⟩ := mem_equations.1 he
    obtain ⟨n, hi⟩ := Array.getElem?_of_mem hmem
    have hfollows := follows_of_eval hp hi hv
    refine ⟨fun d hd => ?_, n, Program.lt_size hi, fun hout => ((hfollows.rulesOut n).1 hout).1 rfl⟩
    have hdn : d ≠ n := (lt_of_lt_of_le (Program.lt_size hi) hd).ne'
    rcases hfollows.ne_universal.1 hne with hroot | ⟨m, hedge, w, hw, hwne⟩
    · exact (hfollows.rulesOut d).2 ⟨hdn, .inl hroot⟩
    · exact (hfollows.rulesOut d).2 ⟨hdn, .inr ⟨m, hedge, w, hw, (henv _ w hw hwne).1 d hd⟩⟩

theorem size_equations (p : Program) : (equations p).size = p.size := by
  simp [equations, Program.size]

theorem depCount_equations_le (p : Program) : depCount (equations p) ≤ p.edgeCount := by
  simp only [depCount, equations, Array.toList_map, List.map_map]
  refine List.sum_le_sum fun i _ => ?_
  show ((equationOf p i).predecessors.map dominatorName).length ≤ i.predecessors.length
  rw [List.length_map]
  exact (predecessors_equationOf p i).length_le

theorem succeedsWithin (hp : p.Consistent) :
    SucceedsWithin (solve p) (p.size * (p.size * p.size + 1)) (p.size + p.size * p.edgeCount) := by
  have h := (confined hp).succeedsWithin (DominatorSet.height p.size) (depCount_equations_le p)
  rw [size_equations] at h
  exact h

end Dominators

namespace Liveness

/-- The sets of live variables hold only variables that the program reads. -/
theorem confined (hp : p.Consistent) :
    Confined (equations p) ∅ fun s => ∀ x ∈ s, x ∈ p.usedVariables where
  wellPosed := wellPosed_of_fresh ((atPoints p).nodup_names hp) (fun e _ => e.isLocal)
    (fun e _ => e.monotone) fun _ _ => Std.ExtTreeMap.not_mem_empty
  total e _ := e.total
  known := by
    intro e he x hx
    obtain ⟨i, hmem, rfl | rfl⟩ := (atPoints p).mem_iff.1 he
    · obtain rfl := List.mem_singleton.1 hx
      exact .inl (name_mem_names ((atPoints p).mem_iff.2 ⟨i, hmem, .inr rfl⟩))
    · obtain ⟨t, ht, rfl⟩ := List.mem_map.1 hx
      obtain ⟨n, hi⟩ := Array.getElem?_of_mem hmem
      have hedge := (Program.edge_iff hi).2 ht
      exact .inl ((atPoints p).inName_mem_names hp (hp.target_lt_size hedge))
  facts := by simp
  keep := by
    intro e he env s henv hs x hx
    obtain ⟨i, hmem, rfl | rfl⟩ := (atPoints p).mem_iff.1 he
    · obtain ⟨after, hafter, hiff⟩ := eval_ofIn hs
      rcases (hiff x).1 hx with huse | ⟨hold, -⟩
      · exact Program.mem_usedVariables.2 ⟨i, hmem, Operation.mem_uses.1 huse⟩
      · exact henv _ after hafter x hold
    · obtain ⟨t, -, live, hlive, hx⟩ := (eval_ofOut hs x).1 hx
      exact henv _ live hlive x hx

theorem depCount_equations (hp : p.Consistent) :
    depCount (equations p) = p.size + p.edgeCount := by
  have hin : ∀ i : Instruction, (deps (LivenessEquation.ofIn i)).length = 1 := fun _ => rfl
  have hout : ∀ i : Instruction, (deps (LivenessEquation.ofOut i)).length = i.targets.length :=
    fun _ => List.length_map _
  rw [← hp.sum_targets_length]
  simp [depCount, equations, Function.comp_def, hout, hin, Program.size]

theorem succeedsWithin (hp : p.Consistent) :
    SucceedsWithin (solve p) (2 * p.size * (2 * p.size * p.usedVariables.card + 1))
      (2 * p.size + p.usedVariables.card * (p.size + p.edgeCount)) := by
  have h := (confined hp).succeedsWithin (height_sets p.usedVariables (Nat.le_refl _))
    (depCount_equations hp).le
  rw [(atPoints p).size_eq] at h
  have hok : ∀ strategy options,
      (∃ solution, Solver.solve strategy (equations p) ∅ options = .ok solution) →
        ∃ l, solve p strategy options = .ok l := by
    rintro strategy options ⟨solution, hsolve⟩
    exact ⟨⟨solution⟩, solve_eq_ok_iff.2 hsolve⟩
  intro options
  exact ⟨fun hbudget => hok _ _ ((h options).1 hbudget),
    fun hbudget => hok _ _ ((h options).2 hbudget)⟩

end Liveness

namespace Constants

theorem confined {env : Environment Flat} {es : Array ConstantEquation}
    (hdistinct : (names es).Nodup) (hfresh : ∀ x ∈ names es, x ∉ env)
    (hknown : ∀ e ∈ es, ∀ x ∈ deps e, x ∈ names es ∨ x ∈ env) :
    Confined es env fun _ => True where
  wellPosed := wellPosed_of_fresh hdistinct (fun e _ => e.isLocal) (fun e _ => e.monotone) hfresh
  total e _ := e.total
  known := hknown
  facts _ _ _ := trivial
  keep _ _ _ _ _ _ := trivial

theorem succeedsWithin {env : Environment Flat} {es : Array ConstantEquation}
    (hes : equations p = .ok es) (hdistinct : (names es).Nodup)
    (hfresh : ∀ x ∈ names es, x ∉ env)
    (hknown : ∀ e ∈ es, ∀ x ∈ deps e, x ∈ names es ∨ x ∈ env) :
    SucceedsWithin (solve p env) (es.size * (2 * es.size + 1)) (es.size + 2 * depCount es) := by
  have h := (confined hdistinct hfresh hknown).succeedsWithin Flat.height le_rfl
  have hsolve : solve p env = fun strategy options => Solver.solve strategy es env options :=
    funext fun strategy => funext fun options => solve_of_equations hes env strategy options
  rw [hsolve, Nat.mul_comm 2 es.size]
  exact h

end Constants

/-- **The analyses succeed within budgets that are polynomials in the size of the program.**  For a
program that has been built, the budgets of reaching definitions, dominators and liveness depend on
the numbers of instructions, of entries in the lists of predecessors and of variables that are read.
For any program the budget of constants depends on the numbers of equations and of names that these
list as read; there no variable may have two equations or, if it has one, a fact at the start, and
all others that are read must have a fact. -/
theorem Program.analyses_succeed (p : Program) :
    (p.Built →
      SucceedsWithin (Reaching.solve p) (2 * p.size * (2 * p.size * p.size + 1))
        (2 * p.size + p.size * (p.size + p.edgeCount)) ∧
      SucceedsWithin (Dominators.solve p) (p.size * (p.size * p.size + 1))
        (p.size + p.size * p.edgeCount) ∧
      SucceedsWithin (Liveness.solve p) (2 * p.size * (2 * p.size * p.usedVariables.card + 1))
        (2 * p.size + p.usedVariables.card * (p.size + p.edgeCount))) ∧
    ∀ es env, Constants.equations p = .ok es → (names es).Nodup → (∀ x ∈ names es, x ∉ env) →
      (∀ e ∈ es, ∀ x ∈ deps e, x ∉ names es → x ∈ env) →
      SucceedsWithin (Constants.solve p env) (es.size * (2 * es.size + 1))
        (es.size + 2 * depCount es) := by
  refine ⟨fun hp => ?_, fun es env hes hdistinct hfresh hknown => ?_⟩
  · have hc := hp.consistent
    exact ⟨Reaching.succeedsWithin hc, Dominators.succeedsWithin hc, Liveness.succeedsWithin hc⟩
  · refine Constants.succeedsWithin hes hdistinct hfresh fun e he x hx => ?_
    by_cases hname : x ∈ names es
    · exact .inl hname
    · exact .inr (hknown e he x hx hname)

/-- A loop that counts up for as long as the count is not zero. -/
def countUp : Program := Program.empty.edits
  [.push (.phi "i" ["zero", "j"]), .push (.binary .add "j" "i" "one"), .push (.branch "j"),
    .sequence [0, 1, 2], .linkBranch 2 true 0]

/-- The literals of the loop. -/
def countUpLiterals : Environment Flat :=
  Constants.ofLiterals (.ofList [("zero", Constant.int 0), ("one", Constant.int 1)])

/-- The equations of the loop for constants. -/
def countUpEquations : Array ConstantEquation :=
  #[.phi "i" ["zero", "j"], .binary .add "j" "i" "one"]

/-- The budgets of a loop of three instructions and three edges, in which four variables are
read. -/
theorem Program.analyses_succeed_countUp : countUp.Built ∧
    SucceedsWithin (Reaching.solve countUp) 114 24 ∧
    SucceedsWithin (Dominators.solve countUp) 30 12 ∧
    SucceedsWithin (Liveness.solve countUp) 150 30 ∧
    Constants.equations countUp = .ok countUpEquations ∧ (names countUpEquations).Nodup ∧
    (∀ x ∈ names countUpEquations, x ∉ countUpLiterals) ∧
    (∀ e ∈ countUpEquations, ∀ x ∈ deps e, x ∉ names countUpEquations → x ∈ countUpLiterals) ∧
    SucceedsWithin (Constants.solve countUp countUpLiterals) 10 10 := by
  have hbuilt : countUp.Built := ⟨_, rfl⟩
  have hes : Constants.equations countUp = .ok countUpEquations := by decide
  have hdistinct : (names countUpEquations).Nodup := by decide
  have hfresh : ∀ x ∈ names countUpEquations, x ∉ countUpLiterals := by decide
  have hknown : ∀ e ∈ countUpEquations, ∀ x ∈ deps e, x ∉ names countUpEquations →
      x ∈ countUpLiterals := by decide
  obtain ⟨hprogram, hconstants⟩ := analyses_succeed countUp
  obtain ⟨hreaching, hdominators, hliveness⟩ := hprogram hbuilt
  exact ⟨hbuilt, hreaching, hdominators, hliveness, hes, hdistinct, hfresh, hknown,
    hconstants _ _ hes hdistinct hfresh hknown⟩

end Dataflow

import Dataflow.Liveness.Interference
import Dataflow.Proofs.Liveness.Paths

/-!
# The interference graph

The graph is put together edge by edge while the instructions are gone through.  What comes out has
exactly the edges that its definition asks for: between a variable that an instruction writes and
any other that is live after the instruction (`Liveness.adjacent_iff`).  In particular it has no
loops.  There is a graph for every solution (`Liveness.Solved.exists_interferenceGraph`), and its
vertices are the variables of the program: what is live is read somewhere, so no edge brings in
another name (`Liveness.mem_interferenceGraph`).

Edges come from writes only.  Two variables that are live at the same point still have an edge,
unless both were live at the entry already: on the way from the entry one of them was the last to be
written, and the other was live after that (`Liveness.interferenceGraph_covers`).
-/

namespace Dataflow

namespace InterferenceGraph

variable {g : InterferenceGraph} {d u v w : String}

/-- The graph has an edge from `u` to `v`. -/
def Adjacent (g : InterferenceGraph) (u v : String) : Prop := ∃ ns, g[u]? = some ns ∧ v ∈ ns

/-! ### Building the graph -/

theorem adjacent_addVertex : (g.addVertex w).Adjacent u v ↔ g.Adjacent u v := by
  unfold Adjacent addVertex
  rw [Std.ExtTreeMap.getElem?_insertIfNew]
  split_ifs with hw
  · -- a new vertex has no neighbours, and it had none before
    have hnone : g[u]? = none := by
      obtain ⟨heq, hnew⟩ := hw
      rw [Std.LawfulEqOrd.compare_eq_iff_eq] at heq
      exact heq ▸ Std.ExtTreeMap.getElem?_eq_none hnew
    simp [hnone]
  · rfl

theorem adjacent_addNeighbour :
    (g.addNeighbour d w).Adjacent u v ↔ g.Adjacent u v ∨ u = d ∧ v = w := by
  unfold Adjacent addNeighbour
  simp only [Std.ExtTreeMap.getElem?_alter, Std.LawfulEqOrd.compare_eq_iff_eq]
  split_ifs with hu
  · subst hu
    cases g[d]? <;> simp [@eq_comm _ w v, or_comm]
  · simp [Ne.symm hu]

theorem adjacent_addEdge : (addEdge d g w).Adjacent u v ↔
    g.Adjacent u v ∨ u ≠ v ∧ (u = d ∧ v = w ∨ v = d ∧ u = w) := by
  unfold addEdge
  split_ifs with hw
  · subst hw
    constructor
    · exact .inl
    · rintro (h | ⟨hne, ⟨rfl, rfl⟩ | ⟨rfl, rfl⟩⟩)
      · exact h
      · exact absurd rfl hne
      · exact absurd rfl hne
  · rw [adjacent_addNeighbour, adjacent_addNeighbour]
    constructor
    · rintro ((h | ⟨rfl, rfl⟩) | ⟨rfl, rfl⟩)
      · exact .inl h
      · exact .inr ⟨Ne.symm hw, .inl ⟨rfl, rfl⟩⟩
      · exact .inr ⟨hw, .inr ⟨rfl, rfl⟩⟩
    · rintro (h | ⟨-, ⟨rfl, rfl⟩ | ⟨rfl, rfl⟩⟩)
      · exact .inl (.inl h)
      · exact .inl (.inr ⟨rfl, rfl⟩)
      · exact .inr ⟨rfl, rfl⟩

theorem adjacent_foldl_addEdge {ws : List String} : (ws.foldl (addEdge d) g).Adjacent u v ↔
    g.Adjacent u v ∨ u ≠ v ∧ (u = d ∧ v ∈ ws ∨ v = d ∧ u ∈ ws) := by
  induction ws generalizing g with
  | nil => simp
  | cons w ws ih =>
    rw [List.foldl_cons, ih, adjacent_addEdge]
    simp only [List.mem_cons]
    tauto

/-- An instruction adds edges between what it writes and what is live after it. -/
theorem adjacent_addInterference {i : Instruction} {live : LocationSet} :
    (g.addInterference i live).Adjacent u v ↔ g.Adjacent u v ∨ u ≠ v ∧
      (i.operation.definition = some u ∧ v ∈ live ∨
        i.operation.definition = some v ∧ u ∈ live) := by
  unfold addInterference
  cases i.operation.definition with
  | none => simp
  | some d =>
    rw [Option.toList_some, List.foldl_cons, List.foldl_nil, adjacent_foldl_addEdge]
    simp only [Std.ExtTreeSet.mem_toList, Option.some.injEq, @eq_comm _ d]

theorem not_adjacent_addVariables {is : List Instruction} (h : ¬ g.Adjacent u v) :
    ¬ (is.foldl addVariables g).Adjacent u v := by
  have hvertices : ∀ (xs : List String) (g : InterferenceGraph),
      ¬ g.Adjacent u v → ¬ (xs.foldl addVertex g).Adjacent u v := fun xs g hg =>
    List.foldlRecOn (motive := fun g => ¬ Adjacent g u v) xs addVertex hg
      fun _ hg _ _ => by rwa [adjacent_addVertex]
  exact List.foldlRecOn (motive := fun g => ¬ Adjacent g u v) is addVariables h
    fun g hg i _ => hvertices _ g hg

/-! ### Vertices -/

theorem mem_addVertex : u ∈ g.addVertex w ↔ u ∈ g ∨ u = w := by
  rw [addVertex, Std.ExtTreeMap.mem_insertIfNew, Std.LawfulEqOrd.compare_eq_iff_eq, or_comm,
    @eq_comm _ w u]

theorem mem_addNeighbour : u ∈ g.addNeighbour d w ↔ u ∈ g ∨ u = d := by
  rw [addNeighbour, Std.ExtTreeMap.mem_alter]
  simp only [Std.LawfulEqOrd.compare_eq_iff_eq, Option.isSome_some]
  split_ifs with hu
  · simp [hu]
  · simp [Ne.symm hu]

theorem mem_foldl_addVertex {xs : List String} : u ∈ xs.foldl addVertex g ↔ u ∈ g ∨ u ∈ xs := by
  induction xs generalizing g with
  | nil => simp
  | cons x xs ih => rw [List.foldl_cons, ih, mem_addVertex, List.mem_cons, or_assoc]

/-- The variables of instructions become vertices. -/
theorem mem_foldl_addVariables {is : List Instruction} : u ∈ is.foldl addVariables g ↔
    u ∈ g ∨ ∃ i ∈ is, i.operation.definition = some u ∨ u ∈ i.operation.uses := by
  induction is generalizing g with
  | nil => simp
  | cons i is ih =>
    rw [List.foldl_cons, ih, addVariables, mem_foldl_addVertex, List.mem_append, Option.mem_toList,
      Std.ExtTreeSet.mem_toList, List.exists_mem_cons_iff, or_assoc]

/-- An edge between vertices brings in no other vertex. -/
theorem mem_addEdge (hd : d ∈ g) (hw : w ∈ g) : u ∈ addEdge d g w ↔ u ∈ g := by
  unfold addEdge
  split_ifs
  · rfl
  · rw [mem_addNeighbour, mem_addNeighbour, or_assoc, or_iff_left_iff_imp]
    rintro (rfl | rfl)
    · exact hd
    · exact hw

theorem mem_foldl_addEdge {ws : List String} (hd : d ∈ g) (hws : ∀ w ∈ ws, w ∈ g) :
    u ∈ ws.foldl (addEdge d) g ↔ u ∈ g := by
  induction ws generalizing g with
  | nil => rfl
  | cons w ws ih =>
    obtain ⟨hw, hws⟩ := List.forall_mem_cons.1 hws
    rw [List.foldl_cons, ih ((mem_addEdge hd hw).2 hd) fun v hv => (mem_addEdge hd hw).2 (hws v hv),
      mem_addEdge hd hw]

theorem mem_addInterference {i : Instruction} {live : LocationSet}
    (hdef : ∀ d, i.operation.definition = some d → d ∈ g) (hlive : ∀ w ∈ live, w ∈ g) :
    u ∈ g.addInterference i live ↔ u ∈ g := by
  unfold addInterference
  cases hd : i.operation.definition with
  | none => rfl
  | some d =>
    have hmembers : ∀ w ∈ live.toList, w ∈ g := fun w hw => hlive w (Std.ExtTreeSet.mem_toList.1 hw)
    exact mem_foldl_addEdge (hdef d hd) hmembers

end InterferenceGraph

namespace Liveness

open InterferenceGraph

variable {l : Liveness} {p : Program} {u v : String}

theorem adjacent_interfere {is : List Instruction} {g g' : InterferenceGraph}
    (h : l.interfere g is = .ok g') : g'.Adjacent u v ↔ g.Adjacent u v ∨ u ≠ v ∧ ∃ i ∈ is,
      i.operation.definition = some u ∧ l.LiveAfter i.id v ∨
        i.operation.definition = some v ∧ l.LiveAfter i.id u := by
  induction is generalizing g with
  | nil =>
    cases h
    simp
  | cons i is ih =>
    rw [interfere] at h
    cases hlive : l.liveOut i.id with
    | error e => simp [hlive] at h
    | ok live =>
      rw [hlive] at h
      rw [ih h, adjacent_addInterference, ← liveAfter_iff_mem hlive, ← liveAfter_iff_mem hlive,
        List.exists_mem_cons_iff, or_assoc, ← and_or_left]

theorem exists_interfere {is : List Instruction} (h : ∀ i ∈ is, ∃ live, l.liveOut i.id = .ok live)
    (g : InterferenceGraph) : ∃ g', l.interfere g is = .ok g' := by
  induction is generalizing g with
  | nil => exact ⟨g, rfl⟩
  | cons i is ih =>
    obtain ⟨live, hlive⟩ := h i List.mem_cons_self
    simp only [interfere, hlive]
    exact ih (fun j hj => h j (List.mem_cons_of_mem i hj)) _

theorem mem_interfere {is : List Instruction} {g g' : InterferenceGraph}
    (h : l.interfere g is = .ok g')
    (hdef : ∀ i ∈ is, ∀ d, i.operation.definition = some d → d ∈ g)
    (hlive : ∀ i ∈ is, ∀ w, l.LiveAfter i.id w → w ∈ g) : u ∈ g' ↔ u ∈ g := by
  induction is generalizing g with
  | nil =>
    cases h
    rfl
  | cons i is ih =>
    obtain ⟨hdef, hdefs⟩ := List.forall_mem_cons.1 hdef
    obtain ⟨hlive, hlives⟩ := List.forall_mem_cons.1 hlive
    rw [interfere] at h
    cases hout : l.liveOut i.id with
    | error e => simp [hout] at h
    | ok live =>
      rw [hout] at h
      have hstep : ∀ w, w ∈ g.addInterference i live ↔ w ∈ g := fun w =>
        mem_addInterference hdef fun w hw => hlive w ((liveAfter_iff_mem hout).2 hw)
      rw [ih h, hstep]
      · exact fun j hj d hd => (hstep d).2 (hdefs j hj d hd)
      · exact fun j hj w hw => (hstep w).2 (hlives j hj w hw)

/-- A solution has an interference graph. -/
theorem Solved.exists_interferenceGraph (hl : l.Solved p) (hp : p.Consistent) :
    ∃ g, l.interferenceGraph p = .ok g := by
  refine exists_interfere (fun i hi => ?_) _
  obtain ⟨n, hn⟩ := Program.mem_toList_iff.1 hi
  rw [hp.id hn]
  exact hl.liveOut (Program.lt_size hn)

/-- **The edges of the interference graph.**  Two variables are adjacent if they are different and
one of them is written where the other is live afterwards. -/
theorem adjacent_iff (hp : p.Consistent) {g : InterferenceGraph}
    (h : l.interferenceGraph p = .ok g) : g.Adjacent u v ↔ u ≠ v ∧ ∃ n,
      p.Defines n u ∧ l.LiveAfter n v ∨ p.Defines n v ∧ l.LiveAfter n u := by
  have hvertices : ¬ (p.instructions.toList.foldl addVariables ∅).Adjacent u v :=
    not_adjacent_addVariables (by simp [Adjacent])
  rw [adjacent_interfere h, or_iff_right hvertices]
  refine and_congr_right fun _ => ⟨?_, ?_⟩
  · rintro ⟨i, hmem, hi⟩
    obtain ⟨n, hn⟩ := Program.mem_toList_iff.1 hmem
    rw [hp.id hn] at hi
    exact ⟨n, by simpa [Program.defines_iff hn] using hi⟩
  · rintro ⟨n, hn | hn⟩
    · obtain ⟨⟨i, hi, hdef⟩, hlive⟩ := hn
      exact ⟨i, Program.mem_toList_iff.2 ⟨n, hi⟩, .inl ⟨hdef, hp.id hi ▸ hlive⟩⟩
    · obtain ⟨⟨i, hi, hdef⟩, hlive⟩ := hn
      exact ⟨i, Program.mem_toList_iff.2 ⟨n, hi⟩, .inr ⟨hdef, hp.id hi ▸ hlive⟩⟩

theorem mem_variables : u ∈ p.instructions.toList.foldl addVariables ∅ ↔
    ∃ n, p.Defines n u ∨ p.Uses n u := by
  rw [mem_foldl_addVariables, or_iff_right Std.ExtTreeMap.not_mem_empty]
  constructor
  · rintro ⟨i, hmem, hu⟩
    obtain ⟨n, hn⟩ := Program.mem_toList_iff.1 hmem
    exact ⟨n, hu.imp (fun hdef => ⟨i, hn, hdef⟩) fun huse => ⟨i, hn, huse⟩⟩
  · rintro ⟨n, ⟨i, hn, hdef⟩ | ⟨i, hn, huse⟩⟩
    · exact ⟨i, Program.mem_toList_iff.2 ⟨n, hn⟩, .inl hdef⟩
    · exact ⟨i, Program.mem_toList_iff.2 ⟨n, hn⟩, .inr huse⟩

/-- **The vertices of the interference graph** are the variables that the program writes or
reads. -/
theorem mem_interferenceGraph (hp : p.Consistent) {strategy : Solver.Strategy}
    {options : Solver.Options} (h : solve p strategy options = .ok l) {g : InterferenceGraph}
    (hg : l.interferenceGraph p = .ok g) : u ∈ g ↔ ∃ n, p.Defines n u ∨ p.Uses n u := by
  have hl := solved_of_solve hp h
  rw [mem_interfere hg, mem_variables]
  · intro i hmem d hdef
    obtain ⟨n, hn⟩ := Program.mem_toList_iff.1 hmem
    exact mem_variables.2 ⟨n, .inl ⟨i, hn, hdef⟩⟩
  · -- what is live after an instruction is read at the end of some path from there
    intro i hmem w hw
    obtain ⟨n, hn⟩ := Program.mem_toList_iff.1 hmem
    rw [hp.id hn, hl.after (Program.lt_size hn)] at hw
    obtain ⟨t, -, hw⟩ := hw
    obtain ⟨q, -, huse⟩ := liveAt_of_solve hp h hw
    exact mem_variables.2 ⟨q, .inr huse⟩

/-! ### Variables that are live together -/

/-- Two variables that are live together after an edge have an edge of their own, or were live
together before. -/
theorem Solved.adjacent_or_liveBefore (hl : l.Solved p) (hp : p.Consistent)
    {g : InterferenceGraph} (hg : l.interferenceGraph p = .ok g) (huv : u ≠ v) {m n : Nat}
    (hedge : p.Edge m n) (hu : l.LiveBefore n u) (hv : l.LiveBefore n v) :
    g.Adjacent u v ∨ l.LiveBefore m u ∧ l.LiveBefore m v := by
  have hm := hedge.lt_size
  have hafterU : l.LiveAfter m u := (hl.after hm).2 ⟨n, hedge, hu⟩
  have hafterV : l.LiveAfter m v := (hl.after hm).2 ⟨n, hedge, hv⟩
  by_cases hdefU : p.Defines m u
  · exact .inl ((adjacent_iff hp hg).2 ⟨huv, m, .inl ⟨hdefU, hafterV⟩⟩)
  by_cases hdefV : p.Defines m v
  · exact .inl ((adjacent_iff hp hg).2 ⟨huv, m, .inr ⟨hdefV, hafterU⟩⟩)
  exact .inr ⟨(hl.before hm).2 (.inr ⟨hafterU, hdefU⟩), (hl.before hm).2 (.inr ⟨hafterV, hdefV⟩)⟩

/-- Two variables that are live together at the end of a path have an edge, or were live together at
its start. -/
theorem Solved.adjacent_or_liveBefore_of_path (hl : l.Solved p) (hp : p.Consistent)
    {g : InterferenceGraph} (hg : l.interferenceGraph p = .ok g) (huv : u ≠ v) {m n : Nat}
    {path : List Nat} (hpath : p.IsPath m path n) :
    l.LiveBefore n u → l.LiveBefore n v →
      g.Adjacent u v ∨ l.LiveBefore m u ∧ l.LiveBefore m v := by
  refine hpath.invariant (P := fun n => l.LiveBefore n u → l.LiveBefore n v →
    g.Adjacent u v ∨ l.LiveBefore m u ∧ l.LiveBefore m v) (fun hu hv => .inr ⟨hu, hv⟩) ?_
  intro a b hedge _ ih hu hv
  rcases hl.adjacent_or_liveBefore hp hg huv hedge hu hv with hadj | ⟨hu, hv⟩
  · exact .inl hadj
  · exact ih hu hv

/-- **The interference graph misses no pair of variables that are live together, but those that are
live at the entry.**  For a program that has been built and any solution, the graph exists, its
vertices are the variables that the program writes or reads, and it is symmetric and has no loops.
At every instruction that a path from the entry leads to, two different variables that are live have
an edge, or both are live at the entry. -/
theorem interferenceGraph_covers (hp : p.Built) {strategy : Solver.Strategy}
    {options : Solver.Options} (h : solve p strategy options = .ok l) :
    ∃ g, l.interferenceGraph p = .ok g ∧
      (∀ x, x ∈ g ↔ ∃ n, p.Defines n x ∨ p.Uses n x) ∧
      (∀ u v, g.Adjacent u v → g.Adjacent v u) ∧
      (∀ u, ¬ g.Adjacent u u) ∧
      ∀ entry, p.entry? = some entry → ∃ atEntry, l.liveIn entry.id = .ok atEntry ∧
        ∀ path n, p.IsPath entry.id path n → ∃ live, l.liveIn n = .ok live ∧
          ∀ u ∈ live, ∀ v ∈ live, u ≠ v → g.Adjacent u v ∨ u ∈ atEntry ∧ v ∈ atEntry := by
  have hc := hp.consistent
  have hl := solved_of_solve hc h
  obtain ⟨g, hg⟩ := hl.exists_interferenceGraph hc
  refine ⟨g, hg, fun x => mem_interferenceGraph hc h hg, fun u v huv => ?_, fun u huu => ?_,
    fun entry hentry => ?_⟩
  · obtain ⟨hne, n, hn⟩ := (adjacent_iff hc hg).1 huv
    exact (adjacent_iff hc hg).2 ⟨hne.symm, n, hn.symm⟩
  · exact ((adjacent_iff hc hg).1 huu).1 rfl
  · have hid : entry.id = 0 := hc.id hentry
    have hsize : entry.id < p.size := hid ▸ Program.lt_size hentry
    obtain ⟨atEntry, hatEntry⟩ := hl.liveIn hsize
    refine ⟨atEntry, hatEntry, fun path n hpath => ?_⟩
    have hn : n < p.size := hpath.invariant hsize fun hedge _ _ => hc.target_lt_size hedge
    obtain ⟨live, hlive⟩ := hl.liveIn hn
    refine ⟨live, hlive, fun u hu v hv huv => ?_⟩
    simp only [← liveBefore_iff_mem hlive, ← liveBefore_iff_mem hatEntry] at hu hv ⊢
    exact hl.adjacent_or_liveBefore_of_path hc hg huv hpath hu hv

/-- At the branch of the loop four variables are live.  They all have edges with each other but
`step` and `end`, which are live at the entry and never written. -/
theorem interferenceGraph_covers_halfLoop : halfLoop.Built ∧
    ∃ l g atEntry live, solve halfLoop .worklist {} = .ok l ∧
      l.interferenceGraph halfLoop = .ok g ∧
      g["step"]?.map (·.toList) = some ["i", "more"] ∧
      l.liveIn 0 = .ok atEntry ∧ l.liveIn 2 = .ok live ∧
      live.toList = ["end", "i", "more", "step"] ∧
      ∀ u ∈ live, ∀ v ∈ live, u ≠ v → g.Adjacent u v ∨ u ∈ atEntry ∧ v ∈ atEntry := by
  have hbuilt : halfLoop.Built := ⟨_, rfl⟩
  have hmembers : ((solve halfLoop .worklist {} >>= fun l => l.liveIn 2).map
      fun live => live.toList) = .ok ["end", "i", "more", "step"] := by decide +kernel
  obtain ⟨live, hlive, hmembers⟩ := map_eq_ok_iff.1 hmembers
  obtain ⟨l, hl, hlive⟩ := bind_eq_ok_iff.1 hlive
  have hneighbours : ((solve halfLoop .worklist {} >>= fun l => l.interferenceGraph halfLoop).map
      fun g => g["step"]?.map (·.toList)) = .ok (some ["i", "more"]) := by decide +kernel
  rw [hl] at hneighbours
  obtain ⟨g, hg, hneighbours⟩ := map_eq_ok_iff.1 hneighbours
  obtain ⟨g', hg', -, -, -, hcovers⟩ := interferenceGraph_covers hbuilt hl
  obtain rfl : g' = g := Except.ok.inj (hg'.symm.trans hg)
  obtain ⟨atEntry, hatEntry, hpairs⟩ := hcovers _ rfl
  have hpath : halfLoop.IsPath 0 [0, 1, 2] 2 :=
    .cons (show 1 ∈ halfLoop.targetsOf 0 by decide)
      (.cons (show 2 ∈ halfLoop.targetsOf 1 by decide) (.single 2))
  obtain ⟨live', hlive', hpairs⟩ := hpairs _ _ hpath
  obtain rfl : live' = live := Except.ok.inj (hlive'.symm.trans hlive)
  exact ⟨hbuilt, l, g', atEntry, live', hl, hg', hneighbours, hatEntry, hlive', hmembers, hpairs⟩

end Liveness

end Dataflow

import Dataflow.Proofs.Location
import Dataflow.Proofs.Machine.Execution
import Dataflow.Proofs.PointsTo.Andersen

/-!
# References in execution are references of the analysis

The machine gives each piece of storage a name of its own, and the analysis knows only the sites
where storage is allocated.  An environment covers a state if every reference in a variable leads to
a cell of one of its sites, and likewise for every reference in a cell, whose own site takes the
place of the variable (`PointsTo.Covers`).

An Andersen solution covers all states that a program reaches (`Covers.executes`).  References move
along flows, under which it is closed.  For loads and stores this takes one more step: the cell that
the machine goes to belongs to a site, and that the analysis knows which is because the name of a
cell tells its site (`cellName_inj`).
-/

namespace Dataflow.PointsTo

open Machine

variable {p : Program} {env : Environment LocationSet} {s s' : State}

/-- If the value is a reference, it leads to a cell of a site that `x` may refer to. -/
def Admits (env : Environment LocationSet) (x : String) (v : Value) : Prop :=
  ∀ l, v = .reference l → ∃ site n, l = cellName site n ∧ siteName site ∈ env.targets x

theorem admits_constant (x : String) (c : Constant) : Admits env x (.constant c) := by
  intro l hl
  cases hl

theorem admits_reference {x : String} {site : Nat} (n : Nat) (h : siteName site ∈ env.targets x) :
    Admits env x (.reference (cellName site n)) := by
  intro l hl
  cases hl
  exact ⟨site, n, rfl, h⟩

/-- What a name may hold, it may hold where references flow to. -/
theorem Admits.flow (henv : IsAndersen p env) {dst src : String} {v : Value}
    (h : Admits env src v) (hflow : Flows p env dst src) : Admits env dst v := by
  intro l hl
  obtain ⟨site, n, hcell, hsite⟩ := h l hl
  exact ⟨site, n, hcell, henv.closed hflow _ hsite⟩

/-- Variables and cells refer only to what the environment says; for a cell, to what it says about
its site. -/
structure Covers (env : Environment LocationSet) (s : State) : Prop where
  value : ∀ {x v}, s.value x = .ok v → Admits env x v
  content : ∀ {l v}, s.memory[l]? = some (some v) →
    ∃ site n, l = cellName site n ∧ Admits env (siteName site) v

namespace Covers

/-- A state without references has nothing to cover. -/
theorem of_isPlain (h : s.IsPlain) : Covers env s where
  value {x v} hv := by
    obtain ⟨c, rfl⟩ := h.value hv
    exact admits_constant x c
  content {l v} hl := by
    rw [h.memory] at hl
    simp at hl

theorem setVariable (hs : Covers env s) {x : String} {v : Value} (hv : Admits env x v) :
    Covers env (s.setVariable x v) where
  value {y w} hw := by
    rw [State.value_setVariable] at hw
    split_ifs at hw with hy
    · cases hw
      exact hy ▸ hv
    · exact hs.value hw
  content := hs.content

/-- New storage holds nothing. -/
theorem allocate (hs : Covers env s) (site : Nat) : Covers env (s.allocate site).2 where
  value := hs.value
  content {l v} hl := by
    simp only [State.allocate, Std.ExtTreeMap.getElem?_insert] at hl
    split_ifs at hl
    · cases hl
    · exact hs.content hl

theorem store (hs : Covers env s) {site n : Nat} {v : Value} (hv : Admits env (siteName site) v) :
    Covers env { s with memory := s.memory.insert (cellName site n) (some v) } where
  value := hs.value
  content {l w} hl := by
    simp only [Std.ExtTreeMap.getElem?_insert, Std.LawfulEqOrd.compare_eq_iff_eq] at hl
    split_ifs at hl with heq
    · cases hl
      exact ⟨site, n, heq.symm, hv⟩
    · exact hs.content hl

/-- What a cell holds, its site may hold. -/
theorem cell (hs : Covers env s) {site n : Nat} {v : Value}
    (h : s.memory[cellName site n]? = some (some v)) : Admits env (siteName site) v := by
  obtain ⟨site', n', hname, hv⟩ := hs.content h
  obtain ⟨rfl, -⟩ := cellName_inj.1 hname
  exact hv

/-- **Instructions keep a state covered by an Andersen solution.** -/
theorem executes (henv : IsAndersen p env) {i : Instruction} (hi : i ∈ p.instructions)
    (hs : Covers env s) (h : State.Executes i.id s i.operation s') : Covers env s' := by
  generalize hop : i.operation = op at h
  cases h with
  | @binary _ dst => exact hs.setVariable (admits_constant dst _)
  | branch => exact hs
  | move hsrc => exact hs.setVariable ((hs.value hsrc).flow henv (.move hi hop))
  | @alloca dst =>
    have hsite : siteName i.id ∈ env.targets dst :=
      henv.above.mem_targets (mem_targets_initialEnvironment.2 ⟨i, hi, hop, rfl⟩)
    exact (hs.allocate i.id).setVariable (admits_reference s.allocations hsite)
  | load hsrc hcell =>
    -- the cell that is read belongs to a site that the analysis gives for the reference
    obtain ⟨site, n, rfl, hsite⟩ := hs.value hsrc _ rfl
    exact hs.setVariable ((hs.cell hcell).flow henv (.load hi hop hsite))
  | store hdst hsrc hmem =>
    obtain ⟨site, n, rfl, hsite⟩ := hs.value hdst _ rfl
    exact hs.store ((hs.value hsrc).flow henv (.store hi hop hsite))
  | phi hnewest =>
    obtain ⟨x, hx, hvalue⟩ := State.exists_of_newest_eq_ok hnewest
    exact hs.setVariable ((hs.value hvalue).flow henv (.phi hi hop hx))
  | @read dst c rest hinput =>
    have hrest : Covers env { s with input := rest } := ⟨hs.value, hs.content⟩
    exact hrest.setVariable (admits_constant dst c)

end Covers

theorem exists_targetsOf {r : PointsTo} {x t : String} (h : t ∈ r.environment.targets x) :
    ∃ targets, r.targetsOf x = .ok targets ∧ t ∈ targets := by
  obtain ⟨targets, hget, ht⟩ := Environment.mem_targets.1 h
  exact ⟨targets, Environment.lookup_eq_ok_iff.2 hget, ht⟩

/-- **The analysis is sound for execution.**  Whatever reference a run from a state without
references puts into a variable or a cell, it leads to a cell of a site that the analysis gives for
the variable, or for the site of the cell. -/
theorem references_covered {strategy : Solver.Strategy} {options : Solver.Options} {r : PointsTo}
    (hsolve : solve p strategy options = .ok r) (hplain : s.IsPlain) {k : Nat} {m : Machine}
    (hrun : (Machine.start p s).after k = .ok m) :
    (∀ x l, m.state.value x = .ok (.reference l) → ∃ site n targets,
      l = cellName site n ∧ r.targetsOf x = .ok targets ∧ siteName site ∈ targets) ∧
    ∀ site n site' n',
      m.state.memory[cellName site n]? = some (some (.reference (cellName site' n'))) →
      ∃ targets, r.targetsOf (siteName site) = .ok targets ∧ siteName site' ∈ targets := by
  have henv : IsAndersen p r.environment := (solve_complete hsolve).isAndersen
  have hcovers : Covers r.environment m.state :=
    after_invariant (Covers.of_isPlain hplain) (fun i hi _ _ => Covers.executes henv hi) hrun
  constructor
  · intro x l hx
    obtain ⟨site, n, hl, hsite⟩ := hcovers.value hx l rfl
    obtain ⟨targets, htargets, hmem⟩ := exists_targetsOf hsite
    exact ⟨site, n, targets, hl, htargets, hmem⟩
  · intro site n site' n' hcell
    obtain ⟨site₁, n₁, hname, hsite⟩ := hcovers.cell hcell _ rfl
    obtain ⟨rfl, -⟩ := cellName_inj.1 hname
    exact exists_targetsOf hsite

/-- A loop that builds a list: each new cell holds a reference to the cell before it. -/
def growingList : Program := Program.empty.edits
  [.push (.alloca "first"), .push (.phi "list" ["first", "cell"]), .push (.alloca "cell"),
    .push (.store "cell" "list"), .push (.load "tail" "cell"), .sequence [0, 1, 2, 3, 4, 1]]

/-- After two turns of the loop, the tail is a cell of the site of the loop, and a cell of this site
holds a reference to another one. -/
theorem references_covered_growingList :
    ∃ r m, solve growingList .worklist {} = .ok r ∧
      (Machine.start growingList (State.initial ∅ [])).after 9 = .ok m ∧
      m.state.value "tail" = .ok (.reference (cellName 2 1)) ∧
      m.state.memory[cellName 2 2]? = some (some (.reference (cellName 2 1))) ∧
      (∃ site n targets, cellName 2 1 = cellName site n ∧ r.targetsOf "tail" = .ok targets ∧
        siteName site ∈ targets) ∧
      ∃ targets, r.targetsOf (siteName 2) = .ok targets ∧ siteName 2 ∈ targets := by
  obtain ⟨r, hsolve⟩ : ∃ r, solve growingList .worklist {} = .ok r :=
    exists_eq_ok (by decide +kernel)
  have hstate : ((Machine.start growingList (State.initial ∅ [])).after 9 |>.map fun m =>
      (m.state.value "tail", m.state.memory[cellName 2 2]?)) =
      .ok (.ok (.reference (cellName 2 1)), some (some (.reference (cellName 2 1)))) := by
    decide +kernel
  obtain ⟨m, hrun, hm⟩ := map_eq_ok_iff.1 hstate
  obtain ⟨htail, hcell⟩ := Prod.mk.inj hm
  obtain ⟨hvalues, hcells⟩ := references_covered hsolve (State.isPlain_initial ∅ []) hrun
  exact ⟨r, m, hsolve, hrun, htail, hcell, hvalues _ _ htail, hcells _ _ _ _ hcell⟩

end Dataflow.PointsTo

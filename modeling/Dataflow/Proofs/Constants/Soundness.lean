import Dataflow.Proofs.Contract
import Dataflow.Proofs.Machine.Execution
import Dataflow.Proofs.Solver.FixedPoint

/-!
# Constant propagation is sound

Constant propagation does not look at control flow, and a run of the machine does.  In a program
that defines each variable once, the solution still describes every run: a variable that has got
a value has either no constant fact or exactly that value as its fact
(`Constants.solve_sound`).

`Flat.Allows` relates facts to constants.  Every operation on facts allows what the operation on
constants gives, so a state that agrees with a solution (`Constants.Describes`) still does so after
every instruction (`Constants.Describes.executes`).
-/

namespace Dataflow

/-- The variables that the instructions of a program write, with repetitions. -/
def Program.definitions (p : Program) : List String :=
  p.instructions.toList.filterMap fun i => i.operation.definition

/-! ### Facts and constants -/

namespace Flat

/-- The fact holds of a variable that has the value `c`. -/
def Allows : Flat → Constant → Prop
  | undef, _ => False
  | constant d, c => d = c
  | nac, _ => True

theorem allows_iff {v : Flat} {c : Constant} : v.Allows c ↔ v = nac ∨ v = constant c := by
  cases v <;> simp [Allows]

theorem Allows.apply {op : BinaryOp} {v w : Flat} {l r c : Constant} (hl : v.Allows l)
    (hr : w.Allows r) (h : op.apply l r = .ok c) : (Flat.apply op v w).Allows c := by
  cases v with
  | undef => exact hl.elim
  | nac => exact trivial
  | constant l' =>
    cases w with
    | undef => exact hr.elim
    | nac => exact trivial
    | constant r' =>
      obtain rfl : l' = l := hl
      obtain rfl : r' = r := hr
      simp only [Flat.apply, h, Allows]

/-- A larger fact allows more. -/
theorem Allows.of_le {v w : Flat} {c : Constant} (h : v.Allows c) (hle : Domain.Le v w) :
    w.Allows c := by
  rcases Flat.le_iff.1 hle with rfl | rfl | rfl
  · exact h.elim
  · exact trivial
  · exact h

end Flat

namespace Constants

open Machine (State)

/-! ### The equations of a program -/

theorem name_ofInstruction {i : Instruction} {o : Option ConstantEquation}
    (h : ConstantEquation.ofInstruction i = .ok o) :
    o.map ConstantEquation.name = i.operation.definition := by
  obtain ⟨id, op, successors, predecessors⟩ := i
  cases op <;> cases h <;> rfl

/-- The equations of a program give facts to the variables that it defines. -/
theorem names_equations {p : Program} {es : Array ConstantEquation} (h : equations p = .ok es) :
    Equation.names es = p.definitions := by
  obtain ⟨os, hos, rfl⟩ := map_eq_ok_iff.1 h
  show (os.filterMap id).map ConstantEquation.name = p.definitions
  have hall := mapM_eq_ok_iff.1 hos
  clear h hos
  unfold Program.definitions
  generalize p.instructions.toList = is at hall
  induction hall with
  | nil => rfl
  | @cons i o is os hi hrest ih =>
    have hname := name_ofInstruction hi
    simp only [List.filterMap_cons, ← hname, ← ih]
    cases o <;> rfl

/-- Where the equations can be made, every instruction has its equation, or is a branch. -/
theorem exists_equation {p : Program} {es : Array ConstantEquation} (h : equations p = .ok es)
    {i : Instruction} (hi : i ∈ p.instructions) :
    ∃ o, ConstantEquation.ofInstruction i = .ok o ∧ ∀ e, o = some e → e ∈ es := by
  obtain ⟨os, hos, rfl⟩ := map_eq_ok_iff.1 h
  obtain ⟨o, ho, hio⟩ := exists_mem_of_mapM hos (Array.mem_toList_iff.2 hi)
  refine ⟨o, hio, ?_⟩
  rintro e rfl
  rw [List.mem_toArray, List.mem_filterMap]
  exact ⟨some e, ho, rfl⟩

/-! ### Runs -/

/-- Every value of the state is a constant that the facts allow. -/
def Describes (facts : Environment Flat) (s : State) : Prop :=
  ∀ x v, s.value x = .ok v → ∃ c, v = .constant c ∧ ∃ f, facts[x]? = some f ∧ f.Allows c

namespace Describes

variable {facts : Environment Flat} {s s' : State}

theorem setVariable (h : Describes facts s) {dst : String} {f : Flat} {c : Constant}
    (hf : facts[dst]? = some f) (hc : f.Allows c) :
    Describes facts (s.setVariable dst (.constant c)) := by
  intro x v hv
  rw [State.value_setVariable] at hv
  split_ifs at hv with hx
  · cases hv
    exact ⟨c, rfl, f, hx ▸ hf, hc⟩
  · exact h x v hv

theorem allows (h : Describes facts s) {x : String} {c : Constant}
    (hx : s.value x = .ok (.constant c)) : ∃ f, facts[x]? = some f ∧ f.Allows c := by
  obtain ⟨c', hc, hf⟩ := h x _ hx
  cases hc
  exact hf

/-- **One instruction keeps the description**, if the equation of the instruction is satisfied. -/
theorem executes {i : Instruction} {o : Option ConstantEquation}
    (ho : ConstantEquation.ofInstruction i = .ok o)
    (hsat : ∀ e, o = some e → Equation.Satisfied e facts) (h : Describes facts s)
    (hex : State.Executes i.id s i.operation s') : Describes facts s' := by
  obtain ⟨id, op, successors, predecessors⟩ := i
  cases hex with
  | branch => exact h
  | @binary op dst lhs rhs l r c hl hr hc =>
    cases ho
    obtain ⟨w, hw, hdst⟩ := hsat _ rfl
    obtain ⟨f, hf, hfl⟩ := h.allows hl
    obtain ⟨g, hg, hgr⟩ := h.allows hr
    have heval : Equation.eval (ConstantEquation.binary op dst lhs rhs) facts =
        .ok (Flat.apply op f g) := by
      show ConstantEquation.eval _ facts = _
      simp only [ConstantEquation.eval, Environment.lookup_eq_ok_iff.2 hf,
        Environment.lookup_eq_ok_iff.2 hg]
    cases heval.symm.trans hw
    exact h.setVariable hdst (hfl.apply hgr hc)
  | @move dst src v hv =>
    cases ho
    obtain ⟨w, hw, hdst⟩ := hsat _ rfl
    obtain ⟨c, rfl, f, hf, hfc⟩ := h src v hv
    cases (Environment.lookup_eq_ok_iff.2 hf).symm.trans hw
    exact h.setVariable hdst hfc
  | @phi dst args v hv =>
    cases ho
    obtain ⟨w, hw, hdst⟩ := hsat _ rfl
    -- whichever argument is the newest, the merged fact allows its value
    obtain ⟨x, hx, hxv⟩ := State.exists_of_newest_eq_ok hv
    obtain ⟨c, rfl, f, hf, hfc⟩ := h x v hxv
    exact h.setVariable hdst (hfc.of_le (Environment.le_gather hw hx hf))
  | @read dst c rest _ =>
    cases ho
    obtain ⟨w, hw, hdst⟩ := hsat _ rfl
    cases hw
    exact Describes.setVariable h hdst trivial
  | alloca => cases ho
  | load => cases ho
  | store => cases ho

/-- A state of known constants is described by facts that have kept them. -/
theorem initial {env : Environment Flat} (inputs : List Constant)
    (hkeep : ∀ (x : String) (c : Constant), env[x]? = some (.constant c) →
      facts[x]? = some (.constant c)) :
    Describes facts (State.initial env inputs) := by
  intro x v hv
  obtain ⟨c, hc, hx⟩ := (State.holdsOnly_initial env inputs).value hv
  exact ⟨c, hc, .constant c, hkeep x c hx, rfl⟩

end Describes

/-- **Constant propagation is sound for every run.**  Let a program define each of its variables
once, none of them bound by the facts to start from.  After any number of steps, with any input, a
variable that has a value has a fact in the solution, and the fact is that the variable is not
constant or that it has exactly this value. -/
theorem solve_sound {p : Program} {env : Environment Flat} (honce : p.definitions.Nodup)
    (hfree : ∀ x ∈ p.definitions, x ∉ env) {strategy : Solver.Strategy} {options : Solver.Options}
    {solution : Solver.Solution Flat} (hsolve : solve p env strategy options = .ok solution)
    {inputs : List Constant} {k : Nat} {m : Machine}
    (hrun : (Machine.start p (State.initial env inputs)).after k = .ok m) {x : String}
    {v : Machine.Value} (hv : m.state.value x = .ok v) :
    ∃ c, v = .constant c ∧ (solution.environment[x]? = some .nac ∨
      solution.environment[x]? = some (.constant c)) := by
  unfold solve trace at hsolve
  split at hsolve
  · cases hsolve
  · rename_i es hes
    have hnames := names_equations hes
    have hit := Solver.iterates_solve hsolve
    have hsat := Solver.satisfied_of_solve (fun e _ => e.isLocal)
      (Solver.sharedNamesRead_of_nodup (hnames ▸ honce)) hsolve
    -- what is bound at the start has no equation, so the solution still says the same about it
    have hkeep : ∀ (y : String) (c : Constant), env[y]? = some (.constant c) →
        solution.environment[y]? = some (.constant c) := by
      intro y c hc
      have hy : y ∉ Equation.names es :=
        fun hmem => hfree y (hnames ▸ hmem) (Environment.mem_iff_exists.2 ⟨_, hc⟩)
      rw [hit.getElem?_of_notMem hy, Equation.getElem?_seedAll, if_neg hy, hc]
    have hdesc : Describes solution.environment m.state := by
      refine Machine.after_invariant (.initial inputs hkeep) (fun i hi s s' hs hex => ?_) hrun
      obtain ⟨o, ho, hmem⟩ := exists_equation hes hi
      exact hs.executes ho (fun e he => hsat e (hmem e he)) hex
    obtain ⟨c, rfl, f, hf, hfc⟩ := hdesc x v hv
    refine ⟨c, rfl, ?_⟩
    rcases Flat.allows_iff.1 hfc with rfl | rfl
    · exact .inl hf
    · exact .inr hf

/-- A loop that counts to two by a constant step, and then reads an input. -/
def countingLoop : Program := Program.empty.edits
  [.push (.binary .add "step" "zero" "one"), .push (.phi "i" ["zero", "j"]),
    .push (.binary .add "j" "i" "step"), .push (.binary .lth "more" "j" "two"),
    .push (.branch "more"), .push (.read "last"), .sequence [0, 1, 2, 3, 4],
    .linkBranch 4 true 1, .linkBranch 4 false 5]

/-- The literals of the loop. -/
def countingLiterals : Environment Flat :=
  ofLiterals (.ofList [("zero", Constant.int 0), ("one", Constant.int 1), ("two", Constant.int 2)])

/-- When the loop is over, the fact of its step allows the value of the step. -/
theorem solve_sound_countingLoop : countingLoop.definitions.Nodup ∧
    (∀ x ∈ countingLoop.definitions, x ∉ countingLiterals) ∧
    ∃ solution m, solve countingLoop countingLiterals .worklist {} = .ok solution ∧
      (Machine.start countingLoop (State.initial countingLiterals [.int 7])).after 10 = .ok m ∧
      m.state.value "step" = .ok (.constant (.int 1)) ∧
      ∃ c, Machine.Value.constant (.int 1) = .constant c ∧
        (solution.environment["step"]? = some .nac ∨
          solution.environment["step"]? = some (.constant c)) := by
  have honce : countingLoop.definitions.Nodup := by decide
  have hfree : ∀ x ∈ countingLoop.definitions, x ∉ countingLiterals := by decide
  obtain ⟨solution, hsolve⟩ :
      ∃ solution, solve countingLoop countingLiterals .worklist {} = .ok solution :=
    exists_eq_ok (by decide)
  have hvalue : ((Machine.start countingLoop (State.initial countingLiterals [.int 7])).after 10 >>=
      fun m => m.state.value "step") = .ok (.constant (.int 1)) := by decide
  obtain ⟨m, hrun, hm⟩ := bind_eq_ok_iff.1 hvalue
  exact ⟨honce, hfree, solution, m, hsolve, hrun, hm, solve_sound honce hfree hsolve hrun hm⟩

end Constants

end Dataflow

import Dataflow.Proofs.Flowgraph.Edits
import Dataflow.Proofs.Liveness.Paths
import Dataflow.Proofs.Machine.Failure

/-!
# Programs without undefined variables find all their names

Liveness tells what a program may read before it writes it.  If everything that is live at the entry
is bound at the start, no run of the program ever looks for a name in vain, be it a variable, a
storage location or an instruction (`Liveness.step_error_of_defined`).  What is left are failures
that lie in the values, and branches that have not been given the edge they want to take.

A machine is `Supplied` if what is live where control is has values, and its references lead to
storage.  One step keeps it so (`Supplied.step`): what is live after an instruction was live before
or has just been written.
-/

namespace Dataflow

/-- The instruction is a branch, and its slot for the outcome `taken` is empty. -/
def Instruction.LacksEdge (i : Instruction) (taken : Bool) : Prop :=
  ∃ onTrue onFalse, i.successors = .branch onTrue onFalse ∧
    (if taken then onTrue else onFalse) = none

/-- Every phi of the program has an argument. -/
def Program.PhisHaveArguments (p : Program) : Prop :=
  ∀ i ∈ p.instructions, ∀ dst args, i.operation = .phi dst args → args ≠ []

namespace Program

variable {p : Program} {n : Nat} {i : Instruction}

theorem Consistent.branchTarget_error (hp : p.Consistent) (hi : p.instructions[n]? = some i)
    (hop : i.operation.isBranch = true) {taken : Bool} {e : Error}
    (h : i.branchTarget taken = .error e) : e = .missingEdge n taken ∧ i.LacksEdge taken := by
  have hslots := hp.slots hi
  rw [hop] at hslots
  unfold Instruction.branchTarget at h
  split at h
  · rename_i ts hts
    rw [hts] at hslots
    cases hslots
  · rename_i onTrue onFalse hsucc
    split at h
    · cases h
    · rename_i hnone
      cases h
      exact ⟨congrArg (Error.missingEdge · taken) (hp.id hi), onTrue, onFalse, hsucc, hnone⟩

/-- Control falls through from an instruction that is no branch. -/
theorem Consistent.exists_next (hp : p.Consistent) (hi : p.instructions[n]? = some i)
    (hop : i.operation.isBranch = false) : ∃ location, i.next = .ok location := by
  have hslots := hp.slots hi
  rw [hop] at hslots
  unfold Instruction.next
  split
  · exact ⟨_, rfl⟩
  · rename_i hsucc
    rw [hsucc] at hslots
    cases hslots

/-- An instruction whose operands are bound fails to name a successor only because of a value, or
because the edge is missing. -/
theorem Consistent.successor_error (hp : p.Consistent) (hi : p.instructions[n]? = some i)
    {s : Machine.State} (hbound : ∀ x ∈ i.operation.operands, x ∈ s.bindings) {e : Error}
    (h : Machine.successor i s = .error e) :
    e.AboutValues ∨ ∃ taken, e = .missingEdge n taken ∧ i.LacksEdge taken := by
  unfold Machine.successor at h
  split at h
  · rename_i condition hop
    simp only [bind_eq_error_iff] at h
    rcases h with h | ⟨c, -, h | ⟨t, -, h⟩⟩
    · have hcondition : condition ∈ s.bindings :=
        hbound condition (by simp [hop, Operation.operands])
      exact .inl (Machine.State.constant_error hcondition h)
    · exact .inr ⟨c.isTrue, hp.branchTarget_error hi (by simp [hop, Operation.isBranch]) h⟩
    · cases h
  · rename_i hop
    have hbranch : i.operation.isBranch = false := by
      cases hcase : i.operation with
      | branch condition => exact absurd hcase (hop condition)
      | binary | move | alloca | load | store | phi | read => rfl
    obtain ⟨location, hnext⟩ := hp.exists_next hi hbranch
    rw [hnext] at h
    cases h

end Program

namespace Liveness

open Machine (State start)

variable {l : Liveness} {p : Program} {m m' : Machine}

/-- Control is at an instruction of the program or has left it, everything that is live there has a
value, and all references lead to storage. -/
structure Supplied (l : Liveness) (p : Program) (m : Machine) : Prop where
  program : m.program = p
  closed : m.state.Closed
  location : ∀ n, m.location = some n → n < p.size
  live : ∀ n x, m.location = some n → l.LiveBefore n x → x ∈ m.state.bindings

namespace Supplied

theorem operands (hl : l.Solved p) (hm : Supplied l p m) {n : Nat} {i : Instruction}
    (hn : m.location = some n) (hi : p.instructions[n]? = some i) :
    ∀ x ∈ i.operation.operands, x ∈ m.state.bindings := by
  intro x hx
  refine hm.live n x hn ((hl.before (Program.lt_size hi)).2 (.inl ?_))
  exact (Program.uses_iff hi).2 (Operation.mem_uses.2 hx)

/-- **A step keeps a machine supplied.** -/
theorem step (hp : p.Consistent) (hl : l.Solved p) (hm : Supplied l p m) (h : m.step = .ok m') :
    Supplied l p m' := by
  rcases Machine.step_cases h with ⟨-, rfl⟩ | ⟨n, i, s, location, hn, hi, hs, hnext, rfl⟩
  · exact hm
  · rw [hm.program] at hi
    have hedge : ∀ t, location = some t → p.Edge n t := by
      rintro t rfl
      exact (Program.edge_iff hi).2 (Machine.mem_targets_of_successor hnext)
    refine ⟨hm.program, hm.closed.executes hs, fun t ht => ?_, fun t x ht hx => ?_⟩
    · exact hp.target_lt_size (hedge t ht)
    · have hn' := Program.lt_size hi
      have hafter : l.LiveAfter n x := (hl.after hn').2 ⟨t, hedge t ht, hx⟩
      by_cases hdef : i.operation.definition = some x
      · exact hs.mem_bindings (.inl hdef)
      · have hbefore : l.LiveBefore n x :=
          (hl.before hn').2 (.inr ⟨hafter, mt (Program.defines_iff hi).1 hdef⟩)
        exact hs.mem_bindings (.inr (hm.live n x hn hbefore))

/-- **A supplied machine fails only because of values, or for want of an edge.** -/
theorem step_error (hp : p.Consistent) (hphi : p.PhisHaveArguments) (hl : l.Solved p)
    (hm : Supplied l p m) {e : Error} (h : m.step = .error e) :
    e.AboutValues ∨ ∃ n i taken, m.location = some n ∧ p.instructions[n]? = some i ∧
      e = .missingEdge n taken ∧ i.LacksEdge taken := by
  unfold Machine.step at h
  split at h
  · cases h
  · rename_i n hn
    obtain ⟨i, hi⟩ := Program.exists_instruction (hm.location n hn)
    have hbound := hm.operands hl hn hi
    have hfound : m.program.instruction n = .ok i :=
      Program.instruction_eq_ok_iff.2 (hm.program.symm ▸ hi)
    simp only [bind_eq_error_iff, hfound] at h
    rcases h with h | ⟨_, heq, h | ⟨s, hs, h | ⟨location, -, h⟩⟩⟩
    · cases h
    · cases heq
      exact .inl (hm.closed.execute_error hbound (hphi i (Array.mem_of_getElem? hi)) h)
    · cases heq
      have hbound' : ∀ x ∈ i.operation.operands, x ∈ s.bindings :=
        fun x hx => (State.execute_eq_ok_iff.1 hs).mem_bindings (.inr (hbound x hx))
      rcases hp.successor_error hi hbound' h with hvalues | ⟨taken, he, hlacks⟩
      · exact .inl hvalues
      · exact .inr ⟨n, i, taken, hn, hi, he, hlacks⟩
    · cases h

end Supplied

/-! ### Runs -/

/-- What is live at the entry is bound if nothing is undefined. -/
theorem mem_of_undefinedVariables_eq_empty {V : Type} {env : Environment V} {i : Instruction}
    (hi : p.entry? = some i) (h : l.undefinedVariables p env = .ok ∅) {x : String}
    (hx : l.LiveBefore i.id x) : x ∈ env := by
  obtain ⟨live, hlive, hx⟩ := hx
  have hempty : live.filter (fun v => !env.contains v) = ∅ := by
    simp only [undefinedVariables, hi, hlive] at h
    exact Except.ok.inj h
  by_contra hnot
  have hcontains : env.contains x = false :=
    Bool.eq_false_iff.2 fun htrue => hnot (Std.ExtTreeMap.contains_iff_mem.1 htrue)
  have hundefined : x ∈ live.filter fun v => !env.contains v := by
    simp [Std.ExtTreeSet.mem_filter, hx, hcontains]
  rw [hempty] at hundefined
  exact Std.ExtTreeSet.not_mem_empty hundefined

/-- A program without undefined variables starts supplied. -/
theorem supplied_start (hp : p.Consistent) {env : Environment Flat}
    (hconstant : ∀ (x : String) v, env[x]? = some v → ∃ c, v = .constant c)
    (hdefined : l.undefinedVariables p env = .ok ∅) (inputs : List Constant) :
    Supplied l p (start p (State.initial env inputs)) := by
  have hplain := State.isPlain_initial env inputs
  have hentry : ∀ n, (start p (State.initial env inputs)).location = some n →
      ∃ i, p.instructions[0]? = some i ∧ i.id = n := by
    intro n hn
    exact Option.map_eq_some_iff.1 hn
  refine ⟨rfl, .of_isPlain hplain, fun n hn => ?_, fun n x hn hx => ?_⟩
  · obtain ⟨i, hi, rfl⟩ := hentry n hn
    rw [hp.id hi]
    exact Program.lt_size hi
  · obtain ⟨i, hi, rfl⟩ := hentry n hn
    have hmem : x ∈ env := mem_of_undefinedVariables_eq_empty hi hdefined hx
    obtain ⟨v, hv⟩ := Environment.mem_iff_exists.1 hmem
    obtain ⟨c, rfl⟩ := hconstant x v hv
    show x ∈ (State.initial env inputs).bindings
    rw [State.bindings_initial, State.mem_bindings_ofEnvironment]
    exact ⟨c, hv⟩

/-- **Without undefined variables no run fails to find a name.**  Let all phis of a program have
arguments, and let constants be given for all variables that are live at the entry.  Wherever a run
gets to, a step from there that fails does so with an arithmetic error, with an error about the
values at hand, or at a branch whose slot for the outcome of its condition is empty.  So it never
fails for want of a variable, a storage location or an instruction, nor because it takes an
instruction for a branch. -/
theorem step_error_of_defined (hp : p.Built) (hphi : p.PhisHaveArguments)
    {env : Environment Flat}
    (hconstant : ∀ (x : String) v, env[x]? = some v → ∃ c, v = .constant c)
    {strategy : Solver.Strategy} {options : Solver.Options}
    (h : solve p strategy options = .ok l) (hdefined : l.undefinedVariables p env = .ok ∅)
    {inputs : List Constant} {k : Nat}
    (hrun : (start p (State.initial env inputs)).after k = .ok m) {e : Error}
    (herror : m.step = .error e) :
    e.kind = .arithmetic ∨ e.kind = .custom ∨
      ∃ n i taken, m.location = some n ∧ p.instructions[n]? = some i ∧
        (∃ condition, i.operation = .branch condition) ∧ i.LacksEdge taken ∧
        e = .missingEdge n taken := by
  have hc := hp.consistent
  have hl := solved_of_solve hc h
  have hsupplied : Supplied l p m :=
    Machine.after_induction (supplied_start hc hconstant hdefined inputs)
      (fun _ _ hm hstep => hm.step hc hl hstep) hrun
  rcases hsupplied.step_error hc hphi hl herror with
    (harith | hcustom) | ⟨n, i, taken, hn, hi, he, hlacks⟩
  · exact .inl harith
  · exact .inr (.inl hcustom)
  · obtain ⟨onTrue, onFalse, hsucc, hnone⟩ := hlacks
    exact .inr (.inr ⟨n, i, taken, hn, hi, (hc.exists_slots_iff hi).1 ⟨onTrue, onFalse, hsucc⟩,
      ⟨onTrue, onFalse, hsucc, hnone⟩, he⟩)

/-- A loop that keeps its counter in storage.  The branch at its end has no edge to leave it. -/
def storedCounter : Program := Program.empty.edits
  [.push (.alloca "cell"), .push (.store "cell" "zero"), .push (.load "old" "cell"),
    .push (.binary .add "new" "old" "one"), .push (.store "cell" "new"),
    .push (.phi "last" ["new", "zero"]), .push (.binary .lth "more" "last" "two"),
    .push (.branch "more"), .sequence [0, 1, 2, 3, 4, 5, 6, 7], .linkBranch 7 true 2]

/-- The constants of the loop. -/
def storedCounterConstants : Environment Flat :=
  Constants.ofLiterals
    (.ofList [("zero", Constant.int 0), ("one", Constant.int 1), ("two", Constant.int 2)])

/-- The loop runs twice, and then fails for want of an edge. -/
theorem step_error_of_defined_storedCounter :
    storedCounter.Built ∧ storedCounter.PhisHaveArguments ∧
    (∀ (x : String) v, storedCounterConstants[x]? = some v → ∃ c, v = .constant c) ∧
    ∃ l, solve storedCounter .chaotic {} = .ok l ∧
      l.undefinedVariables storedCounter storedCounterConstants = .ok ∅ ∧
      ∃ m e, (start storedCounter (State.initial storedCounterConstants [])).after 13 = .ok m ∧
        m.step = .error e ∧ e = .missingEdge 7 false ∧
        (e.kind = .arithmetic ∨ e.kind = .custom ∨
          ∃ n i taken, m.location = some n ∧ storedCounter.instructions[n]? = some i ∧
            (∃ condition, i.operation = .branch condition) ∧ i.LacksEdge taken ∧
            e = .missingEdge n taken) := by
  have hbuilt : storedCounter.Built := ⟨_, rfl⟩
  have hphi : storedCounter.PhisHaveArguments := by
    have hops : ∀ i ∈ storedCounter.instructions, ∀ dst ∈ i.operation.definition,
        i.operation ≠ .phi dst [] := by decide +kernel
    rintro i hi dst args hop rfl
    exact hops i hi dst (by simp [hop, Operation.definition]) hop
  have hconstant : ∀ (x : String) v,
      storedCounterConstants[x]? = some v → ∃ c, v = .constant c := by
    intro x v hv
    rw [storedCounterConstants, Constants.ofLiterals, Std.ExtTreeMap.getElem?_map] at hv
    obtain ⟨c, -, rfl⟩ := Option.map_eq_some_iff.1 hv
    exact ⟨c, rfl⟩
  have hdefined : (solve storedCounter .chaotic {} >>= fun l =>
      l.undefinedVariables storedCounter storedCounterConstants) = .ok ∅ := by decide +kernel
  obtain ⟨l, hl, hdefined⟩ := bind_eq_ok_iff.1 hdefined
  have hfail : ((start storedCounter (State.initial storedCounterConstants [])).after 13).map
      (fun m => m.step.map fun _ => ()) = .ok (.error (.missingEdge 7 false)) := by decide +kernel
  obtain ⟨m, hrun, hstep⟩ := map_eq_ok_iff.1 hfail
  have herror := map_eq_error_iff.1 hstep
  exact ⟨hbuilt, hphi, hconstant, l, hl, hdefined, m, _, hrun, herror, rfl,
    step_error_of_defined hbuilt hphi hconstant hl hdefined hrun herror⟩

end Liveness

end Dataflow

import Dataflow.Proofs.Machine.Execution

/-!
# Two machines in lockstep

A program whose variables are renamed does the same as before, as long as the names that matter
stay apart.  Here is what that takes of one instruction.

`Lockstep` relates the outcomes of two computations: both succeed with related results, or both fail
for the same kind of reason.  It is passed on from the parts of a computation to the whole
(`Lockstep.bind`).  `State.Tracks` relates two states: they differ in their variables only, and the
second holds under the new name what the first holds under the old one, for the names that
matter.  What matters before an instruction are the variables that it reads, and what matters
afterwards and is not written by it; then both states are still related afterwards
(`State.Tracks.execute`).
-/

namespace Dataflow

/-! ### Renaming -/

/-- The operation with other names for its variables. -/
def Operation.rename (f : String → String) : Operation → Operation
  | binary op dst lhs rhs => binary op (f dst) (f lhs) (f rhs)
  | branch condition => branch (f condition)
  | move dst src => move (f dst) (f src)
  | alloca dst => alloca (f dst)
  | load dst src => load (f dst) (f src)
  | store dst src => store (f dst) (f src)
  | phi dst args => phi (f dst) (args.map f)
  | read dst => read (f dst)

/-- The instruction with other names for its variables, and with the same edges. -/
def Instruction.rename (f : String → String) (i : Instruction) : Instruction :=
  { i with operation := i.operation.rename f }

/-- The program with other names for its variables. -/
def Program.rename (f : String → String) (p : Program) : Program :=
  { instructions := p.instructions.map (·.rename f) }

theorem Operation.rename_id (op : Operation) : op.rename id = op := by
  cases op <;> simp [rename]

theorem Program.rename_id (p : Program) : p.rename id = p := by
  have hid : (fun i : Instruction => i.rename id) = id := by
    funext i
    simp [Instruction.rename, Operation.rename_id]
  simp [rename, hid]

/-! ### Lockstep -/

/-- Both computations succeed with results in the relation, or both fail with errors of the same
kind. -/
inductive Lockstep {α β : Type} (R : α → β → Prop) : Except Error α → Except Error β → Prop
  | ok {a : α} {b : β} : R a b → Lockstep R (.ok a) (.ok b)
  | error {e e' : Error} : e.kind = e'.kind → Lockstep R (.error e) (.error e')

namespace Lockstep

variable {α β γ δ : Type} {R : α → β → Prop} {S : γ → δ → Prop}

theorem refl (r : Except Error α) : Lockstep Eq r r := by
  cases r with
  | error e => exact .error rfl
  | ok a => exact .ok rfl

theorem mono {R' : α → β → Prop} {r : Except Error α} {r' : Except Error β} (h : Lockstep R r r')
    (hR : ∀ a b, R a b → R' a b) : Lockstep R' r r' := by
  cases h with
  | ok hab => exact .ok (hR _ _ hab)
  | error he => exact .error he

/-- Computations in lockstep that go on in lockstep. -/
theorem bind {r : Except Error α} {r' : Except Error β} {g : α → Except Error γ}
    {g' : β → Except Error δ} (h : Lockstep R r r')
    (hg : ∀ a b, r = .ok a → R a b → Lockstep S (g a) (g' b)) :
    Lockstep S (r >>= g) (r' >>= g') := by
  cases h with
  | ok hab => exact hg _ _ rfl hab
  | error he => exact .error he

end Lockstep

namespace Machine

namespace State

/-! ### Related states -/

/-- The states differ in their variables only, and for every variable in `live` the second holds
under the new name what the first holds under the old one: the same value, written at the same time,
or nothing. -/
structure Tracks (f : String → String) (live : String → Prop) (s s' : State) : Prop where
  clock : s'.clock = s.clock
  memory : s'.memory = s.memory
  allocations : s'.allocations = s.allocations
  input : s'.input = s.input
  entry : ∀ x, live x → s'.bindings[f x]? = s.bindings[x]?

namespace Tracks

variable {f : String → String} {live after : String → Prop} {s s' : State}

theorem mono (h : s.Tracks f live s') (hsub : ∀ x, after x → live x) : s.Tracks f after s' :=
  ⟨h.clock, h.memory, h.allocations, h.input, fun x hx => h.entry x (hsub x hx)⟩

theorem value (h : s.Tracks f live s') {x : String} (hx : live x) :
    Lockstep Eq (s.value x) (s'.value (f x)) := by
  unfold State.value
  rw [h.entry x hx]
  rcases s.bindings[x]? with _ | ⟨v, t⟩
  · exact .error rfl
  · exact .ok rfl

theorem constant (h : s.Tracks f live s') {x : String} (hx : live x) :
    Lockstep Eq (s.constant x) (s'.constant (f x)) := by
  have hvalue := h.value hx
  unfold State.constant
  generalize s.value x = r at hvalue ⊢
  generalize s'.value (f x) = r' at hvalue ⊢
  cases hvalue with
  | error he => exact .error he
  | @ok v _ hv =>
    subst hv
    cases v with
    | constant c => exact .ok rfl
    | reference l => exact .error rfl

theorem reference (h : s.Tracks f live s') {x : String} (hx : live x) :
    Lockstep Eq (s.reference x) (s'.reference (f x)) := by
  have hvalue := h.value hx
  unfold State.reference
  generalize s.value x = r at hvalue ⊢
  generalize s'.value (f x) = r' at hvalue ⊢
  cases hvalue with
  | error he => exact .error he
  | @ok v _ hv =>
    subst hv
    cases v with
    | constant c => exact .error rfl
    | reference l => exact .ok rfl

/-- A phi sees the same candidates in the same order, with the same times. -/
theorem newest (h : s.Tracks f live s') {names : List String} (hnames : ∀ x ∈ names, live x) :
    Lockstep Eq (s.newest names) (s'.newest (names.map f)) := by
  have hsame : (names.map f).filterMap (fun x => s'.bindings[x]?) =
      names.filterMap fun x => s.bindings[x]? := by
    rw [List.filterMap_map]
    exact List.filterMap_congr fun x hx => h.entry x (hnames x hx)
  unfold State.newest
  rw [hsame]
  split
  · exact .error rfl
  · exact .ok rfl

theorem load (h : s.Tracks f live s') (location : String) :
    Lockstep Eq (s.load location) (s'.load location) := by
  unfold State.load
  rw [h.memory]
  exact .refl _

theorem store (h : s.Tracks f live s') (location : String) (v : Value) :
    Lockstep (Tracks f live) (s.store location v) (s'.store location v) := by
  unfold State.store
  rw [h.memory]
  split
  · exact .ok ⟨h.clock, rfl, h.allocations, h.input, h.entry⟩
  · exact .error rfl

theorem allocate (h : s.Tracks f live s') (site : Nat) :
    (s'.allocate site).1 = (s.allocate site).1 ∧
      (s.allocate site).2.Tracks f live (s'.allocate site).2 := by
  simp only [State.allocate, h.memory, h.allocations]
  exact ⟨trivial, h.clock, rfl, rfl, h.input, h.entry⟩

theorem readInput (h : s.Tracks f live s') :
    Lockstep (fun r r' => r.1 = r'.1 ∧ r.2.Tracks f live r'.2) s.readInput s'.readInput := by
  unfold State.readInput
  rw [h.input]
  split
  · exact .ok ⟨rfl, h.clock, h.memory, h.allocations, rfl, h.entry⟩
  · exact .error rfl

/-- Writing a variable under both names.  Another variable that still matters must not have the same
new name. -/
theorem setVariable (h : s.Tracks f live s') {x : String} (v : Value)
    (hkeep : ∀ y, after y → y ≠ x → live y) (hapart : ∀ y, after y → y ≠ x → f y ≠ f x) :
    (s.setVariable x v).Tracks f after (s'.setVariable (f x) v) := by
  refine ⟨congrArg tick h.clock, h.memory, h.allocations, h.input, fun y hy => ?_⟩
  simp only [State.setVariable, Environment.getElem?_insert, h.clock]
  by_cases hyx : y = x
  · simp [hyx]
  · rw [if_neg hyx, if_neg (hapart y hy hyx)]
    exact h.entry y (hkeep y hy hyx)

/-- **Related states are still related after an instruction**, or it fails in both.  Before the
instruction the states must agree about all variables that it reads, and about all that matter
afterwards and are not written; and none of these may share its new name with the variable that is
written. -/
theorem execute (h : s.Tracks f live s') {i : Instruction}
    (huses : ∀ x ∈ i.operation.operands, live x)
    (hkeep : ∀ y, after y → i.operation.definition ≠ some y → live y)
    (hapart : ∀ x y, i.operation.definition = some x → after y → y ≠ x → f y ≠ f x) :
    Lockstep (Tracks f after) (s.execute i) (s'.execute (i.rename f)) := by
  obtain ⟨id, op, successors, predecessors⟩ := i
  have hwrite : ∀ {x : String} {t t' : State} (v : Value), t.Tracks f live t' →
      op.definition = some x → (t.setVariable x v).Tracks f after (t'.setVariable (f x) v) := by
    intro x t t' v ht hx
    refine ht.setVariable v (fun y hy hyx => hkeep y hy ?_) fun y hy => hapart x y hx hy
    show op.definition ≠ some y
    simpa [hx, eq_comm] using hyx
  cases op with
  | binary op dst lhs rhs =>
    have hlhs : live lhs := huses lhs (by simp [Operation.operands])
    have hrhs : live rhs := huses rhs (by simp [Operation.operands])
    refine (h.constant hlhs).bind fun l _ _ hl => ?_
    subst hl
    refine (h.constant hrhs).bind fun r _ _ hr => ?_
    subst hr
    refine (Lockstep.refl (op.apply l r)).bind fun c _ _ hc => ?_
    subst hc
    exact .ok (hwrite _ h rfl)
  | branch condition => exact .ok (h.mono fun y hy => hkeep y hy (by simp [Operation.definition]))
  | move dst src =>
    have hsrc : live src := huses src (by simp [Operation.operands])
    refine (h.value hsrc).bind fun v _ _ hv => ?_
    subst hv
    exact .ok (hwrite v h rfl)
  | alloca dst =>
    obtain ⟨hname, hstate⟩ := h.allocate id
    show Lockstep _ (.ok ((s.allocate id).2.setVariable dst (.reference (s.allocate id).1)))
      (.ok ((s'.allocate id).2.setVariable (f dst) (.reference (s'.allocate id).1)))
    rw [hname]
    exact .ok (hwrite _ hstate rfl)
  | load dst src =>
    have hsrc : live src := huses src (by simp [Operation.operands])
    refine (h.reference hsrc).bind fun l _ _ hl => ?_
    subst hl
    refine (h.load l).bind fun v _ _ hv => ?_
    subst hv
    exact .ok (hwrite v h rfl)
  | store dst src =>
    have hdst : live dst := huses dst (by simp [Operation.operands])
    have hsrc : live src := huses src (by simp [Operation.operands])
    refine (h.reference hdst).bind fun l _ _ hl => ?_
    subst hl
    refine (h.value hsrc).bind fun v _ _ hv => ?_
    subst hv
    exact (h.mono fun y hy => hkeep y hy (by simp [Operation.definition])).store l v
  | phi dst args =>
    refine (h.newest huses).bind fun v _ _ hv => ?_
    subst hv
    exact .ok (hwrite v h rfl)
  | read dst =>
    refine h.readInput.bind ?_
    rintro ⟨c, t⟩ ⟨_, t'⟩ - ⟨rfl, ht⟩
    exact .ok (hwrite (.constant c) ht rfl)

/-- Where control goes is a matter of the condition of a branch, and of nothing else in the
state. -/
theorem successor (h : s.Tracks f live s') {i : Instruction}
    (hcondition : ∀ x, i.operation = .branch x → live x) :
    Lockstep Eq (Machine.successor i s) (Machine.successor (i.rename f) s') := by
  obtain ⟨id, op, successors, predecessors⟩ := i
  cases op with
  | branch condition =>
    refine (h.constant (hcondition condition rfl)).bind fun c _ _ hc => ?_
    subst hc
    exact .refl _
  | binary | move | alloca | load | store | phi | read => exact .refl _

end Tracks

end State

end Machine

end Dataflow

import Dataflow.Machine.Run
import Dataflow.Proofs.Order
import Dataflow.Proofs.Outcome

/-!
# What a step of the machine does

`State.Executes` lists the effects of the operations as rules, one for each operation, and
`State.execute_eq_ok_iff` says that these are the successful executions.  Proofs about runs look at
executions through the rules only.

`Machine.after` is the machine after a number of steps.  A property of states that the instructions
of a program preserve holds after every number of steps (`Machine.after_invariant`).
-/

namespace Dataflow.Machine

namespace State

/-! ### Reading a state -/

variable {s s' : State}

theorem value_eq_ok_iff {x : String} {v : Value} :
    s.value x = .ok v ↔ ∃ t, s.bindings[x]? = some (v, t) := by
  unfold value
  rcases s.bindings[x]? with _ | ⟨w, t⟩ <;> simp

theorem constant_eq_ok_iff {x : String} {c : Constant} :
    s.constant x = .ok c ↔ s.value x = .ok (.constant c) := by
  unfold constant
  rcases s.value x with e | c | l <;> simp

theorem reference_eq_ok_iff {x l : String} :
    s.reference x = .ok l ↔ s.value x = .ok (.reference l) := by
  unfold reference
  rcases s.value x with e | c | l <;> simp

theorem load_eq_ok_iff {l : String} {v : Value} :
    s.load l = .ok v ↔ s.memory[l]? = some (some v) := by
  unfold load
  rcases s.memory[l]? with _ | _ | v <;> simp

theorem store_eq_ok_iff {l : String} {v : Value} :
    s.store l v = .ok s' ↔
      l ∈ s.memory ∧ { s with memory := s.memory.insert l (some v) } = s' := by
  unfold store
  split_ifs with hl
  · simp [Std.ExtTreeMap.contains_iff_mem.1 hl]
  · have hnot : l ∉ s.memory := fun h => hl (Std.ExtTreeMap.contains_iff_mem.2 h)
    simp [hnot]

theorem later_eq (a b : Value × Nat) : later a b = a ∨ later a b = b := by
  unfold later
  split_ifs
  · exact .inl rfl
  · exact .inr rfl

theorem foldl_later_mem (a : Value × Nat) (as : List (Value × Nat)) :
    as.foldl later a ∈ a :: as := by
  induction as generalizing a with
  | nil => exact List.mem_cons_self
  | cons b as ih =>
    rcases List.mem_cons.1 (ih (later a b)) with h | h
    · rw [List.foldl_cons, h]
      rcases later_eq a b with hl | hl <;> simp [hl]
    · exact List.mem_cons_of_mem _ (List.mem_cons_of_mem _ h)

/-- The newest value is the value of one of the names. -/
theorem exists_of_newest_eq_ok {names : List String} {v : Value} (h : s.newest names = .ok v) :
    ∃ x ∈ names, s.value x = .ok v := by
  unfold newest at h
  split at h
  · cases h
  · rename_i a as hlist
    have hmem := foldl_later_mem a as
    rw [← hlist, List.mem_filterMap] at hmem
    obtain ⟨x, hx, hb⟩ := hmem
    refine ⟨x, hx, value_eq_ok_iff.2 ⟨(as.foldl later a).2, ?_⟩⟩
    rw [hb, ← Except.ok.inj h]

/-! ### Writing a state -/

theorem value_setVariable (s : State) (x y : String) (v : Value) :
    (s.setVariable x v).value y = if y = x then .ok v else s.value y := by
  unfold value setVariable
  simp only [Std.ExtTreeMap.getElem?_insert, Std.LawfulEqOrd.compare_eq_iff_eq, @eq_comm _ x y]
  split_ifs <;> rfl

/-- The effects of the operations.  `site` is the id of the instruction that executes. -/
inductive Executes (site : Nat) (s : State) : Operation → State → Prop
  | binary {op : BinaryOp} {dst lhs rhs : String} {l r c : Constant} :
      s.value lhs = .ok (.constant l) → s.value rhs = .ok (.constant r) → op.apply l r = .ok c →
      Executes site s (.binary op dst lhs rhs) (s.setVariable dst (.constant c))
  | branch {condition : String} : Executes site s (.branch condition) s
  | move {dst src : String} {v : Value} :
      s.value src = .ok v → Executes site s (.move dst src) (s.setVariable dst v)
  | alloca {dst : String} :
      Executes site s (.alloca dst)
        ((s.allocate site).2.setVariable dst (.reference (cellName site s.allocations)))
  | load {dst src l : String} {v : Value} :
      s.value src = .ok (.reference l) → s.memory[l]? = some (some v) →
      Executes site s (.load dst src) (s.setVariable dst v)
  | store {dst src l : String} {v : Value} :
      s.value dst = .ok (.reference l) → s.value src = .ok v → l ∈ s.memory →
      Executes site s (.store dst src) { s with memory := s.memory.insert l (some v) }
  | phi {dst : String} {args : List String} {v : Value} :
      s.newest args = .ok v → Executes site s (.phi dst args) (s.setVariable dst v)
  | read {dst : String} {c : Constant} {rest : List Constant} :
      s.input = c :: rest →
      Executes site s (.read dst) ({ s with input := rest }.setVariable dst (.constant c))

theorem readInput_eq_ok_iff {c : Constant} :
    s.readInput = .ok (c, s') ↔ ∃ rest, s.input = c :: rest ∧ { s with input := rest } = s' := by
  unfold readInput
  cases s.input <;> simp

/-- **The rules describe the successful executions.** -/
theorem execute_eq_ok_iff {i : Instruction} :
    s.execute i = .ok s' ↔ Executes i.id s i.operation s' := by
  obtain ⟨id, op, successors, predecessors⟩ := i
  constructor
  · intro h
    cases op with
    | binary op dst lhs rhs =>
      simp only [execute, bind_eq_ok_iff, constant_eq_ok_iff] at h
      obtain ⟨l, hl, r, hr, c, hc, h⟩ := h
      cases h
      exact .binary hl hr hc
    | branch condition =>
      cases h
      exact .branch
    | move dst src =>
      simp only [execute, bind_eq_ok_iff] at h
      obtain ⟨v, hv, h⟩ := h
      cases h
      exact .move hv
    | alloca dst =>
      cases h
      exact .alloca
    | load dst src =>
      simp only [execute, bind_eq_ok_iff, reference_eq_ok_iff, load_eq_ok_iff] at h
      obtain ⟨l, hl, v, hv, h⟩ := h
      cases h
      exact .load hl hv
    | store dst src =>
      simp only [execute, bind_eq_ok_iff, reference_eq_ok_iff, store_eq_ok_iff] at h
      obtain ⟨l, hl, v, hv, hmem, rfl⟩ := h
      exact .store hl hv hmem
    | phi dst args =>
      simp only [execute, bind_eq_ok_iff] at h
      obtain ⟨v, hv, h⟩ := h
      cases h
      exact .phi hv
    | read dst =>
      simp only [execute, bind_eq_ok_iff] at h
      obtain ⟨⟨c, s₁⟩, hread, h⟩ := h
      obtain ⟨rest, hinput, rfl⟩ := readInput_eq_ok_iff.1 hread
      cases h
      exact .read hinput
  · intro h
    cases h with
    | binary hl hr hc =>
      simp only [execute, bind_eq_ok_iff, constant_eq_ok_iff]
      exact ⟨_, hl, _, hr, _, hc, rfl⟩
    | branch => rfl
    | move hv =>
      simp only [execute, bind_eq_ok_iff]
      exact ⟨_, hv, rfl⟩
    | alloca => rfl
    | load hl hv =>
      simp only [execute, bind_eq_ok_iff, reference_eq_ok_iff, load_eq_ok_iff]
      exact ⟨_, hl, _, hv, rfl⟩
    | store hl hv hmem =>
      simp only [execute, bind_eq_ok_iff, reference_eq_ok_iff, store_eq_ok_iff]
      exact ⟨_, hl, _, hv, hmem, rfl⟩
    | phi hv =>
      simp only [execute, bind_eq_ok_iff]
      exact ⟨_, hv, rfl⟩
    | read hinput =>
      simp only [execute, bind_eq_ok_iff]
      exact ⟨_, readInput_eq_ok_iff.2 ⟨_, hinput, rfl⟩, rfl⟩

/-! ### What an execution changes -/

/-- An instruction writes its definition, which takes one tick of the clock, and no other
variable. -/
theorem Executes.bindings {site : Nat} {op : Operation} (h : Executes site s op s') :
    (op.definition = none ∧ s'.bindings = s.bindings ∧ s'.clock = s.clock) ∨
      ∃ x v, op.definition = some x ∧ s'.bindings = s.bindings.insert x (v, tick s.clock) ∧
        s'.clock = tick s.clock := by
  cases h with
  | branch | store => exact .inl ⟨rfl, rfl, rfl⟩
  | binary | move | alloca | load | phi | read => exact .inr ⟨_, _, rfl, rfl, rfl⟩

theorem Executes.getElem?_bindings {site : Nat} {op : Operation} (h : Executes site s op s')
    {x : String} (hx : op.definition ≠ some x) : s'.bindings[x]? = s.bindings[x]? := by
  rcases h.bindings with ⟨-, hsame, -⟩ | ⟨y, v, hy, hinsert, -⟩
  · rw [hsame]
  · have hne : y ≠ x := by
      rintro rfl
      exact hx hy
    simp [hinsert, Std.ExtTreeMap.getElem?_insert, hne]

/-- An instruction makes a new location, fills one that is there, or leaves storage as it was. -/
theorem Executes.storage {site : Nat} {op : Operation} (h : Executes site s op s') :
    ((∃ dst, op = .alloca dst) ∧ s'.allocations = tick s.allocations ∧
        s'.memory = s.memory.insert (cellName site s.allocations) none) ∨
      (∀ dst, op ≠ .alloca dst) ∧ s'.allocations = s.allocations ∧
        (s'.memory = s.memory ∨ ∃ l v, l ∈ s.memory ∧ s'.memory = s.memory.insert l (some v)) := by
  cases h with
  | alloca => exact .inl ⟨⟨_, rfl⟩, rfl, rfl⟩
  | store _ _ hl => exact .inr ⟨by simp, rfl, .inr ⟨_, _, hl, rfl⟩⟩
  | binary | branch | move | load | phi | read => exact .inr ⟨by simp, rfl, .inl rfl⟩

/-- Filling a location makes no new one. -/
theorem mem_insert_of_mem {memory : Std.ExtTreeMap String (Option Value)} {l l' : String}
    {v : Option Value} (h : l ∈ memory) : l' ∈ memory.insert l v ↔ l' ∈ memory := by
  rw [Std.ExtTreeMap.mem_insert, Std.LawfulEqOrd.compare_eq_iff_eq]
  exact ⟨fun h' => h'.elim (fun heq => heq ▸ h) id, .inr⟩

/-! ### Starting states -/

/-- The state with the constants of `env` written and `inputs` queued. -/
def initial (env : Environment Flat) (inputs : List Constant) : State :=
  inputs.foldl pushInput (ofEnvironment env)

/-- The state holds nothing but constants of `env`, and no storage. -/
structure HoldsOnly (env : Environment Flat) (s : State) : Prop where
  memory : s.memory = ∅
  value : ∀ {x v}, s.value x = .ok v → ∃ c, v = .constant c ∧ env[x]? = some (.constant c)

theorem holdsOnly_ofEnvironment (env : Environment Flat) : HoldsOnly env (ofEnvironment env) := by
  refine List.foldlRecOn (motive := HoldsOnly env) env.toList _ ?_ fun s hs kv hkv => ?_
  · refine ⟨rfl, fun {x v} hv => ?_⟩
    obtain ⟨t, ht⟩ := value_eq_ok_iff.1 hv
    simp [empty] at ht
  · have hget : env[kv.1]? = some kv.2 := Std.ExtTreeMap.mem_toList_iff_getElem?_eq_some.1 hkv
    unfold setFact
    split
    · rename_i c hc
      refine ⟨hs.memory, fun {x v} hv => ?_⟩
      rw [value_setVariable] at hv
      split_ifs at hv with hx
      · cases hv
        exact ⟨c, rfl, by rw [hx, hget, hc]⟩
      · exact hs.value hv
    · exact hs

theorem holdsOnly_initial (env : Environment Flat) (inputs : List Constant) :
    HoldsOnly env (initial env inputs) :=
  List.foldlRecOn (motive := HoldsOnly env) inputs pushInput (holdsOnly_ofEnvironment env)
    fun _ hs _ _ => ⟨hs.memory, hs.value⟩

/-- The state holds no references, and no storage. -/
structure IsPlain (s : State) : Prop where
  memory : s.memory = ∅
  value : ∀ {x v}, s.value x = .ok v → ∃ c, v = .constant c

theorem isPlain_initial (env : Environment Flat) (inputs : List Constant) :
    IsPlain (initial env inputs) where
  memory := (holdsOnly_initial env inputs).memory
  value hv := by
    obtain ⟨c, hc, -⟩ := (holdsOnly_initial env inputs).value hv
    exact ⟨c, hc⟩

end State

/-! ### Steps -/

/-- A machine that has halted stays as it is; any other one executes the instruction where control
is and goes on to its successor. -/
theorem step_cases {m m' : Machine} (h : m.step = .ok m') :
    (m.location = none ∧ m' = m) ∨ ∃ id i s location, m.location = some id ∧
      m.program.instructions[id]? = some i ∧ State.Executes i.id m.state i.operation s ∧
      successor i s = .ok location ∧ m' = { m with location := location, state := s } := by
  unfold step at h
  split at h
  · rename_i hloc
    exact .inl ⟨hloc, (Except.ok.inj h).symm⟩
  · rename_i id hloc
    simp only [bind_eq_ok_iff, Program.instruction_eq_ok_iff, State.execute_eq_ok_iff] at h
    obtain ⟨i, hi, s, hs, location, hlocation, h⟩ := h
    exact .inr ⟨id, i, s, location, hloc, hi, hs, hlocation, (Except.ok.inj h).symm⟩

/-- Control moves along the edges of the program. -/
theorem mem_targets_of_successor {i : Instruction} {s : State} {t : Nat}
    (h : successor i s = .ok (some t)) : t ∈ i.targets := by
  have hbranch : ∀ taken, i.branchTarget taken = .ok t → t ∈ i.targets := by
    intro taken ht
    unfold Instruction.branchTarget at ht
    unfold Instruction.targets
    split at ht
    · cases ht
    · cases taken <;> (split at ht <;> simp_all)
  unfold successor at h
  split at h
  · simp only [bind_eq_ok_iff] at h
    obtain ⟨c, -, t', ht', heq⟩ := h
    cases heq
    exact hbranch _ ht'
  · unfold Instruction.next at h
    split at h
    · rename_i ts hts
      simp only [Instruction.targets, hts]
      exact List.mem_of_mem_head? (Except.ok.inj h)
    · obtain ⟨t', ht', heq⟩ := map_eq_ok_iff.1 h
      cases heq
      exact hbranch _ ht'

/-- The machine after a number of steps, if all of them succeed. -/
def after (m : Machine) : Nat → Except Error Machine
  | 0 => .ok m
  | k + 1 => m.after k >>= step

/-- What single steps keep holds of a machine after any number of steps. -/
theorem after_induction {P : Machine → Prop} {m m' : Machine} (h₀ : P m)
    (hstep : ∀ m₁ m₂, P m₁ → m₁.step = .ok m₂ → P m₂) {k : Nat} (h : m.after k = .ok m') :
    P m' := by
  induction k generalizing m' with
  | zero =>
    cases h
    exact h₀
  | succ k ih =>
    obtain ⟨m₁, hm₁, hm'⟩ := bind_eq_ok_iff.1 h
    exact hstep m₁ m' (ih hm₁) hm'

/-- **What the instructions of a program preserve holds along all its runs.** -/
theorem after_invariant {p : Program} {s : State} {P : State → Prop} (h₀ : P s)
    (hstep : ∀ i ∈ p.instructions, ∀ s s', P s → State.Executes i.id s i.operation s' → P s')
    {k : Nat} {m : Machine} (h : (start p s).after k = .ok m) : P m.state := by
  -- steps keep the program, so what they execute are always instructions of `p`
  suffices m.program = p ∧ P m.state from this.2
  refine after_induction (P := fun m => m.program = p ∧ P m.state) ⟨rfl, h₀⟩ ?_ h
  rintro m₁ m₂ ⟨hprog, hP⟩ hm₂
  rcases step_cases hm₂ with ⟨-, rfl⟩ | ⟨id, i, s', location, -, hi, hs', -, rfl⟩
  · exact ⟨hprog, hP⟩
  · rw [hprog] at hi
    exact ⟨hprog, hstep i (Array.mem_of_getElem? hi) _ _ hP hs'⟩

end Dataflow.Machine

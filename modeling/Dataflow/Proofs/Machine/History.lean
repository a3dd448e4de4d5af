import Dataflow.Proofs.Machine.Execution

/-!
# Histories

A state that has a history is one that was made by its own operations: variables were written and
inputs queued, storage was allocated, instructions were executed, and some of that may have failed.
A `Record` is such a state together with all that was written and made on the way, in order.

Proofs about histories look at an action through two lemmas only.  `Record.act_writes` says what it
does to the variables, and `Record.act_made` what it does to storage.  What single actions keep
holds after every history (`Record.history_induction`).
-/

namespace Dataflow.Machine

/-- What can be done to a state. -/
inductive Action where
  /-- Write a variable. -/
  | set (x : String) (v : Value)
  | pushInput (c : Constant)
  | readInput
  /-- Make a location for a site. -/
  | allocate (site : Nat)
  /-- Execute an instruction, wherever it comes from. -/
  | execute (i : Instruction)

namespace Action

/-- The variable that an action writes. -/
def definition : Action → Option String
  | set x _ => some x
  | execute i => i.operation.definition
  | _ => none

/-- The site for which an action makes a location. -/
def site? : Action → Option Nat
  | allocate site => some site
  | execute ⟨id, .alloca _, _, _⟩ => some id
  | _ => none

theorem site?_execute_eq_some {i : Instruction} (h : ∃ dst, i.operation = .alloca dst) :
    (execute i).site? = some i.id := by
  obtain ⟨id, op, successors, predecessors⟩ := i
  obtain ⟨dst, rfl⟩ := h
  rfl

theorem site?_execute_eq_none {i : Instruction} (h : ∀ dst, i.operation ≠ .alloca dst) :
    (execute i).site? = none := by
  obtain ⟨id, op, successors, predecessors⟩ := i
  cases op with
  | alloca dst => exact absurd rfl (h dst)
  | binary | branch | move | load | store | phi | read => rfl

end Action

namespace State

/-- The state after an action, if that succeeds. -/
def attempt (s : State) : Action → Except Error State
  | .set x v => .ok (s.setVariable x v)
  | .pushInput c => .ok (s.pushInput c)
  | .readInput => s.readInput.map Prod.snd
  | .allocate site => .ok (s.allocate site).2
  | .execute i => s.execute i

variable {s t : State} {a : Action}

theorem attempt_readInput_eq_ok (h : s.attempt .readInput = .ok t) :
    ∃ rest, t = { s with input := rest } := by
  obtain ⟨⟨c, t⟩, hread, rfl⟩ := map_eq_ok_iff.1 h
  obtain ⟨rest, -, rfl⟩ := readInput_eq_ok_iff.1 hread
  exact ⟨rest, rfl⟩

/-- An action writes its definition, which takes one tick of the clock, and no other variable. -/
theorem attempt_bindings (h : s.attempt a = .ok t) :
    (a.definition = none ∧ t.bindings = s.bindings ∧ t.clock = s.clock) ∨
      ∃ x v, a.definition = some x ∧ t.bindings = s.bindings.insert x (v, tick s.clock) ∧
        t.clock = tick s.clock := by
  cases a with
  | set x v =>
    cases h
    exact .inr ⟨x, v, rfl, rfl, rfl⟩
  | pushInput c =>
    cases h
    exact .inl ⟨rfl, rfl, rfl⟩
  | readInput =>
    obtain ⟨rest, rfl⟩ := attempt_readInput_eq_ok h
    exact .inl ⟨rfl, rfl, rfl⟩
  | allocate site =>
    cases h
    exact .inl ⟨rfl, rfl, rfl⟩
  | execute i => exact (execute_eq_ok_iff.1 h).bindings

/-- An action makes a new location, fills one that is there, or leaves storage as it was. -/
theorem attempt_storage (h : s.attempt a = .ok t) :
    (∃ site, a.site? = some site ∧ t.allocations = tick s.allocations ∧
        t.memory = s.memory.insert (cellName site s.allocations) none) ∨
      a.site? = none ∧ t.allocations = s.allocations ∧
        (t.memory = s.memory ∨ ∃ l v, l ∈ s.memory ∧ t.memory = s.memory.insert l (some v)) := by
  cases a with
  | set x v =>
    cases h
    exact .inr ⟨rfl, rfl, .inl rfl⟩
  | pushInput c =>
    cases h
    exact .inr ⟨rfl, rfl, .inl rfl⟩
  | readInput =>
    obtain ⟨rest, rfl⟩ := attempt_readInput_eq_ok h
    exact .inr ⟨rfl, rfl, .inl rfl⟩
  | allocate site =>
    cases h
    exact .inl ⟨site, rfl, rfl, rfl⟩
  | execute i =>
    rcases (execute_eq_ok_iff.1 h).storage with ⟨hop, hcount, hmemory⟩ | ⟨hop, hcount, hmemory⟩
    · exact .inl ⟨i.id, Action.site?_execute_eq_some hop, hcount, hmemory⟩
    · exact .inr ⟨Action.site?_execute_eq_none hop, hcount, hmemory⟩

end State

/-- A state with its history. -/
structure Record where
  state : State
  /-- The variables that were written, with their values, in order. -/
  writes : List (String × Value) := []
  /-- The names of the locations that were made, in order. -/
  made : List String := []

namespace Record

/-- The record of a state before anything has happened. -/
def empty : Record := { state := .empty }

/-- The constants among some facts, as writes. -/
def constantWrites (entries : List (String × Flat)) : List (String × Value) :=
  entries.filterMap fun kv => kv.2.constant?.map fun c => (kv.1, .constant c)

/-- The record of a state that starts with the constants of an environment. -/
def ofEnvironment (env : Environment Flat) : Record where
  state := .ofEnvironment env
  writes := constantWrites env.toList

/-- The record after an action.  An action that fails leaves it as it was. -/
def act (r : Record) (a : Action) : Record :=
  match r.state.attempt a with
  | .error _ => r
  | .ok t => {
      state := t
      writes := r.writes ++
        (a.definition.bind fun x => t.bindings[x]?.map fun entry => (x, entry.1)).toList
      made := r.made ++ (a.site?.map fun site => (r.state.allocate site).1).toList }

/-- The record after a list of actions. -/
def history (r : Record) (as : List Action) : Record := as.foldl act r

/-! ### Actions -/

section Outcomes

variable {r : Record} {a : Action}

theorem act_of_error {e : Error} (h : r.state.attempt a = .error e) : r.act a = r := by
  simp only [act, h]

theorem state_act_of_ok {t : State} (h : r.state.attempt a = .ok t) : (r.act a).state = t := by
  simp only [act, h]

end Outcomes

variable (r : Record)

/-- **An action writes one variable or none.**  A write goes with a tick of the clock. -/
theorem act_writes (a : Action) :
    ((r.act a).writes = r.writes ∧ (r.act a).state.bindings = r.state.bindings ∧
        (r.act a).state.clock = r.state.clock) ∨
      ∃ x v, (r.act a).writes = r.writes ++ [(x, v)] ∧
        (r.act a).state.bindings = r.state.bindings.insert x (v, tick r.state.clock) ∧
        (r.act a).state.clock = tick r.state.clock := by
  cases h : r.state.attempt a with
  | error e =>
    rw [act_of_error h]
    exact .inl ⟨rfl, rfl, rfl⟩
  | ok t =>
    simp only [act, h]
    rcases State.attempt_bindings h with ⟨hnone, hsame, hclock⟩ | ⟨x, v, hx, hinsert, hclock⟩
    · exact .inl ⟨by simp [hnone], hsame, hclock⟩
    · exact .inr ⟨x, v, by simp [hx, hinsert], hinsert, hclock⟩

/-- **An action makes one location or none.**  Other changes of storage fill locations. -/
theorem act_made (a : Action) :
    ((r.act a).made = r.made ∧ (r.act a).state.allocations = r.state.allocations ∧
        ((r.act a).state.memory = r.state.memory ∨ ∃ l v, l ∈ r.state.memory ∧
          (r.act a).state.memory = r.state.memory.insert l (some v))) ∨
      ∃ site, (r.act a).made = r.made ++ [cellName site r.state.allocations] ∧
        (r.act a).state.allocations = tick r.state.allocations ∧
        (r.act a).state.memory =
          r.state.memory.insert (cellName site r.state.allocations) none := by
  cases h : r.state.attempt a with
  | error e =>
    rw [act_of_error h]
    exact .inl ⟨rfl, rfl, .inl rfl⟩
  | ok t =>
    simp only [act, h]
    rcases State.attempt_storage h with ⟨site, hsite, hcount, hmemory⟩ | ⟨hsite, hcount, hmemory⟩
    · exact .inr ⟨site, by simp [hsite, State.allocate], hcount, hmemory⟩
    · exact .inl ⟨by simp [hsite], hcount, hmemory⟩

/-- What has been written stays on record. -/
theorem length_writes_le_act (a : Action) : r.writes.length ≤ (r.act a).writes.length := by
  rcases r.act_writes a with ⟨hwrites, -⟩ | ⟨x, v, hwrites, -⟩ <;> simp [hwrites]

/-- What has been made stays on record. -/
theorem length_made_le_act (a : Action) : r.made.length ≤ (r.act a).made.length := by
  rcases r.act_made a with ⟨hmade, -⟩ | ⟨site, hmade, -⟩ <;> simp [hmade]

theorem act_set (x : String) (v : Value) :
    r.act (.set x v) =
      { state := r.state.setVariable x v, writes := r.writes ++ [(x, v)], made := r.made } := by
  simp [act, State.attempt, Action.definition, Action.site?, State.setVariable]

/-! ### Histories -/

variable {r}

/-- What the actions of a history keep holds after it. -/
theorem history_induction {P : Record → Prop} (h₀ : P r) (as : List Action)
    (hstep : ∀ r, P r → ∀ a ∈ as, P (r.act a)) : P (r.history as) :=
  List.foldlRecOn (motive := P) as act h₀ hstep

/-- What actions keep while a count is below a bound holds after a history that stays below it, if
actions never lower the count. -/
theorem history_induction_of_lt {P : Record → Prop} {count : Record → Nat} {bound : Nat}
    (hcount : ∀ r a, count r ≤ count (r.act a)) (h₀ : P r) (as : List Action)
    (hstep : ∀ r, P r → ∀ a ∈ as, count (r.act a) < bound → P (r.act a))
    (hlt : count (r.history as) < bound) : P (r.history as) := by
  refine history_induction (P := fun r => count r < bound → P r) (fun _ => h₀) as ?_ hlt
  intro r hr a ha hroom
  exact hstep r (hr (Nat.lt_of_le_of_lt (hcount r a) hroom)) a ha hroom

theorem history_append (r : Record) (as later : List Action) :
    r.history (as ++ later) = (r.history as).history later :=
  List.foldl_append

theorem history_constantWrites (r : Record) (entries : List (String × Flat)) :
    r.history ((constantWrites entries).map fun u => .set u.1 u.2) =
      { state := entries.foldl (fun s kv => s.setFact kv.1 kv.2) r.state
        writes := r.writes ++ constantWrites entries
        made := r.made } := by
  induction entries generalizing r with
  | nil => simp [history, constantWrites]
  | cons kv entries ih =>
    obtain ⟨x, f⟩ := kv
    cases f with
    | constant c =>
      have hcons : constantWrites ((x, .constant c) :: entries) =
          (x, .constant c) :: constantWrites entries := rfl
      rw [hcons, List.map_cons]
      refine (ih (r.act (.set x (.constant c)))).trans ?_
      simp [act_set, State.setFact]
    | undef => exact ih r
    | nac => exact ih r

/-- A state that starts with constants is one to which these have been written. -/
theorem ofEnvironment_eq_history (env : Environment Flat) :
    ofEnvironment env = empty.history ((constantWrites env.toList).map fun u => .set u.1 u.2) :=
  (history_constantWrites empty env.toList).symm

end Record

end Dataflow.Machine

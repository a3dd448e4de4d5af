import Dataflow.Proofs.Machine.Execution

/-!
# Why instructions fail

An instruction can fail because of the values it works on: a sum is too large, a constant is used as
a reference, nothing is left to read.  Or it fails because a name it looks up is bound to nothing.
Failures of the second kind have two sources, variables and storage locations.

Storage is never the source.  In a `Closed` state every reference leads to a location of that state,
and instructions keep a state closed (`State.Closed.executes`).  So if the operands of an
instruction are bound, it fails only because of values (`State.Closed.execute_error`).
-/

namespace Dataflow

/-- The error is about the values that a program computes with: an overflow, a value of the wrong
kind, or no value where one is wanted. -/
def Error.AboutValues (e : Error) : Prop := e.kind = .arithmetic ∨ e.kind = .custom

theorem BinaryOp.apply_error {op : BinaryOp} {l r : Constant} {e : Error}
    (h : op.apply l r = .error e) : e.AboutValues := by
  cases op with
  | add | mul =>
    simp only [BinaryOp.apply] at h
    split at h
    · cases h
    · cases h
      exact .inl rfl
  | lth | geq => cases h

namespace Machine

namespace State

variable {s s' : State}

/-! ### Bound variables -/

theorem mem_bindings_setVariable {x y : String} {v : Value} :
    x ∈ (s.setVariable y v).bindings ↔ x = y ∨ x ∈ s.bindings := by
  simp [setVariable, @eq_comm _ y x]

/-- Variables stay bound, and an instruction binds the variable that it writes. -/
theorem Executes.mem_bindings {site : Nat} {op : Operation} (h : Executes site s op s')
    {x : String} (hx : op.definition = some x ∨ x ∈ s.bindings) : x ∈ s'.bindings := by
  rcases h.bindings with ⟨hnone, hsame, -⟩ | ⟨y, v, hy, hinsert, -⟩
  · rw [hsame]
    exact hx.resolve_left (by simp [hnone])
  · rw [hinsert, Std.ExtTreeMap.mem_insert, Std.LawfulEqOrd.compare_eq_iff_eq]
    exact hx.imp_left fun hx => Option.some.inj (hy.symm.trans hx)

theorem exists_value {x : String} (hx : x ∈ s.bindings) : ∃ v, s.value x = .ok v := by
  rw [Std.ExtTreeMap.mem_iff_isSome_getElem?, Option.isSome_iff_exists] at hx
  obtain ⟨⟨v, t⟩, hv⟩ := hx
  exact ⟨v, value_eq_ok_iff.2 ⟨t, hv⟩⟩

theorem constant_error {x : String} (hx : x ∈ s.bindings) {e : Error}
    (h : s.constant x = .error e) : e.AboutValues := by
  obtain ⟨v, hv⟩ := exists_value hx
  unfold constant at h
  rw [hv] at h
  cases v with
  | constant c => cases h
  | reference l =>
    cases h
    exact .inr rfl

theorem reference_error {x : String} (hx : x ∈ s.bindings) {e : Error}
    (h : s.reference x = .error e) : e.AboutValues := by
  obtain ⟨v, hv⟩ := exists_value hx
  unfold reference at h
  rw [hv] at h
  cases v with
  | constant c =>
    cases h
    exact .inr rfl
  | reference l => cases h

/-- One bound name is enough for a newest value. -/
theorem exists_newest {names : List String} {x : String} (hx : x ∈ names)
    (hbound : x ∈ s.bindings) : ∃ v, s.newest names = .ok v := by
  rw [Std.ExtTreeMap.mem_iff_isSome_getElem?, Option.isSome_iff_exists] at hbound
  obtain ⟨b, hb⟩ := hbound
  have hmem : b ∈ names.filterMap fun x => s.bindings[x]? := List.mem_filterMap.2 ⟨x, hx, hb⟩
  unfold newest
  split
  · rename_i hnil
    rw [hnil] at hmem
    cases hmem
  · exact ⟨_, rfl⟩

theorem readInput_error {e : Error} (h : s.readInput = .error e) : e.AboutValues := by
  unfold readInput at h
  split at h
  · cases h
  · cases h
    exact .inr rfl

/-! ### References and storage -/

/-- Every reference of the state leads to one of its storage locations. -/
structure Closed (s : State) : Prop where
  value : ∀ {x l}, s.value x = .ok (.reference l) → l ∈ s.memory
  content : ∀ {l l' : String}, s.memory[l]? = some (some (.reference l')) → l' ∈ s.memory

namespace Closed

/-- A state without references is closed. -/
theorem of_isPlain (h : s.IsPlain) : s.Closed where
  value hv := by
    obtain ⟨c, hc⟩ := h.value hv
    cases hc
  content hl := by
    rw [h.memory] at hl
    simp at hl

theorem setVariable (hs : s.Closed) {x : String} {v : Value}
    (hv : ∀ l, v = .reference l → l ∈ s.memory) : (s.setVariable x v).Closed where
  value {y l} hy := by
    rw [value_setVariable] at hy
    split_ifs at hy
    · exact hv l (Except.ok.inj hy)
    · exact hs.value hy
  content := hs.content

/-- New storage holds no reference, and takes none of the old storage away. -/
theorem allocate (hs : s.Closed) (site : Nat) : (s.allocate site).2.Closed where
  value hx := Std.ExtTreeMap.mem_insert.2 (.inr (hs.value hx))
  content hl := by
    simp only [State.allocate, Std.ExtTreeMap.getElem?_insert] at hl
    split_ifs at hl
    · cases hl
    · exact Std.ExtTreeMap.mem_insert.2 (.inr (hs.content hl))

theorem store (hs : s.Closed) (location : String) {v : Value}
    (hv : ∀ l, v = .reference l → l ∈ s.memory) :
    Closed { s with memory := s.memory.insert location (some v) } where
  value hx := Std.ExtTreeMap.mem_insert.2 (.inr (hs.value hx))
  content {l l'} hl := by
    refine Std.ExtTreeMap.mem_insert.2 (.inr ?_)
    simp only [Std.ExtTreeMap.getElem?_insert] at hl
    split_ifs at hl
    · exact hv l' (Option.some.inj (Option.some.inj hl))
    · exact hs.content hl

/-- **Instructions keep a state closed.** -/
theorem executes (hs : s.Closed) {site : Nat} {op : Operation} (h : Executes site s op s') :
    s'.Closed := by
  have hvalue : ∀ {x v}, s.value x = .ok v → ∀ l, v = .reference l → l ∈ s.memory := by
    rintro x v hv l rfl
    exact hs.value hv
  cases h with
  | binary => exact hs.setVariable fun l hl => by cases hl
  | branch => exact hs
  | move hsrc => exact hs.setVariable (hvalue hsrc)
  | alloca =>
    refine (hs.allocate site).setVariable fun l hl => ?_
    cases hl
    exact Std.ExtTreeMap.mem_insert_self
  | load _ hcell =>
    refine hs.setVariable fun l hl => ?_
    subst hl
    exact hs.content hcell
  | store _ hsrc _ => exact hs.store _ (hvalue hsrc)
  | phi hnewest =>
    obtain ⟨x, -, hx⟩ := exists_of_newest_eq_ok hnewest
    exact hs.setVariable (hvalue hx)
  | @read dst c rest _ =>
    have hrest : Closed { s with input := rest } := ⟨hs.value, hs.content⟩
    exact hrest.setVariable fun l hl => by cases hl

/-- What is read through a reference is there, or has not been stored yet. -/
theorem load_error_eq (hs : s.Closed) {x l : String} (hx : s.reference x = .ok l) {e : Error}
    (h : s.load l = .error e) : e = .uninitialized l := by
  have hl : l ∈ s.memory := hs.value (reference_eq_ok_iff.1 hx)
  rw [Std.ExtTreeMap.mem_iff_isSome_getElem?, Option.isSome_iff_exists] at hl
  obtain ⟨content, hcontent⟩ := hl
  unfold load at h
  rw [hcontent] at h
  cases content with
  | none => exact (Except.error.inj h).symm
  | some v => cases h

theorem exists_store (hs : s.Closed) {x l : String} (hx : s.reference x = .ok l) (v : Value) :
    ∃ s', s.store l v = .ok s' :=
  ⟨_, store_eq_ok_iff.2 ⟨hs.value (reference_eq_ok_iff.1 hx), rfl⟩⟩

/-- **With all operands bound, an instruction fails only because of values.** -/
theorem execute_error (hs : s.Closed) {i : Instruction}
    (hbound : ∀ x ∈ i.operation.operands, x ∈ s.bindings)
    (hphi : ∀ dst args, i.operation = .phi dst args → args ≠ []) {e : Error}
    (h : s.execute i = .error e) : e.AboutValues := by
  obtain ⟨id, op, successors, predecessors⟩ := i
  cases op with
  | binary op dst lhs rhs =>
    simp only [execute, bind_eq_error_iff] at h
    rcases h with h | ⟨l, -, h | ⟨r, -, h | ⟨c, -, h⟩⟩⟩
    · exact constant_error (hbound lhs (by simp [Operation.operands])) h
    · exact constant_error (hbound rhs (by simp [Operation.operands])) h
    · exact BinaryOp.apply_error h
    · cases h
  | branch condition => cases h
  | move dst src =>
    obtain ⟨v, hv⟩ := exists_value (hbound src (by simp [Operation.operands]))
    simp only [execute, hv] at h
    cases h
  | alloca dst => cases h
  | load dst src =>
    simp only [execute, bind_eq_error_iff] at h
    rcases h with h | ⟨l, hl, h | ⟨v, -, h⟩⟩
    · exact reference_error (hbound src (by simp [Operation.operands])) h
    · rw [hs.load_error_eq hl h]
      exact .inr rfl
    · cases h
  | store dst src =>
    obtain ⟨v, hv⟩ := exists_value (hbound src (by simp [Operation.operands]))
    simp only [execute, bind_eq_error_iff, hv] at h
    rcases h with h | ⟨l, hl, h | ⟨v', -, h⟩⟩
    · exact reference_error (hbound dst (by simp [Operation.operands])) h
    · cases h
    · obtain ⟨s', hstore⟩ := hs.exists_store hl v'
      rw [hstore] at h
      cases h
  | phi dst args =>
    obtain ⟨x, hx⟩ := List.exists_mem_of_ne_nil args (hphi dst args rfl)
    obtain ⟨v, hv⟩ := exists_newest hx (hbound x hx)
    simp only [execute, hv] at h
    cases h
  | read dst =>
    simp only [execute, bind_eq_error_iff] at h
    rcases h with h | ⟨cs, -, h⟩
    · exact readInput_error h
    · cases h

end Closed

/-! ### Starting states -/

/-- The constants of an environment are the variables that it binds. -/
theorem mem_bindings_ofEnvironment {env : Environment Flat} {x : String} :
    x ∈ (ofEnvironment env).bindings ↔ ∃ c, env[x]? = some (.constant c) := by
  have hentries : (∃ c, env[x]? = some (.constant c)) ↔
      x ∈ empty.bindings ∨ ∃ c, (x, Flat.constant c) ∈ env.toList := by
    simp [empty, Std.ExtTreeMap.mem_toList_iff_getElem?_eq_some]
  rw [hentries, ofEnvironment]
  generalize env.toList = entries
  generalize empty = s
  -- what has been bound so far stays bound, so the start of the fold is kept general
  induction entries generalizing s with
  | nil => simp
  | cons kv entries ih =>
    obtain ⟨y, f⟩ := kv
    refine (ih _).trans ?_
    cases f with
    | constant c =>
      simp only [setFact, mem_bindings_setVariable, List.mem_cons, Prod.mk.injEq,
        Flat.constant.injEq]
      constructor
      · rintro ((rfl | hx) | ⟨d, hd⟩)
        · exact .inr ⟨c, .inl ⟨rfl, rfl⟩⟩
        · exact .inl hx
        · exact .inr ⟨d, .inr hd⟩
      · rintro (hx | ⟨d, ⟨rfl, rfl⟩ | hd⟩)
        · exact .inl (.inr hx)
        · exact .inl (.inl rfl)
        · exact .inr ⟨d, hd⟩
    | undef => simp [setFact]
    | nac => simp [setFact]

/-- Queued input binds nothing. -/
theorem bindings_initial (env : Environment Flat) (inputs : List Constant) :
    (initial env inputs).bindings = (ofEnvironment env).bindings :=
  List.foldlRecOn (motive := fun s : State => s.bindings = (ofEnvironment env).bindings) inputs
    pushInput rfl fun _ hs _ _ => hs

end State

end Machine

end Dataflow

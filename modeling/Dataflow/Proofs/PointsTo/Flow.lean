import Dataflow.PointsTo.Saturation
import Dataflow.Proofs.Contract

/-!
# How references flow

`PointsTo.Flows` says in which ways a program lets references flow from one name to another when
references mean what an environment says: one rule for each of moves, phis, loads and stores.  The
inclusions of the analysis are exactly these flows (`mem_edges_iff`), and more references only
mean more flows (`Flows.mono`).

The analysis starts from an environment that binds every name of the program
(`mem_initialEnvironment`) and in which a variable refers to a site only if the program allocates
there for it (`mem_targets_initialEnvironment`).
-/

namespace Dataflow

/-- What a name may refer to: nothing if it is not bound. -/
def Environment.targets (env : Environment LocationSet) (x : String) : LocationSet :=
  env[x]?.getD ∅

namespace Environment

variable {env env' : Environment LocationSet}

theorem mem_targets {x t : String} : t ∈ env.targets x ↔ ∃ T, env[x]? = some T ∧ t ∈ T := by
  unfold targets
  cases env[x]? <;> simp

theorem mem_targets_insert {x y t : String} {T : LocationSet} :
    t ∈ targets (env.insert y T) x ↔ if x = y then t ∈ T else t ∈ env.targets x := by
  unfold targets
  rw [getElem?_insert]
  split_ifs <;> rfl

theorem Le.mem_targets (h : env.Le env') {x t : String} (ht : t ∈ env.targets x) :
    t ∈ env'.targets x := by
  obtain ⟨T, hT, htT⟩ := Environment.mem_targets.1 ht
  obtain ⟨T', hT', hle⟩ := h.exists_upper hT
  exact Environment.mem_targets.2 ⟨T', hT', Domain.le_iff_forall_mem.1 hle t htT⟩

theorem targets_foldl_seed (env : Environment LocationSet) (names : List String) (x : String) :
    targets (names.foldl (fun env y => env.seed y ∅) env) x = env.targets x := by
  unfold targets
  rw [getElem?_foldl_seed]
  split_ifs <;> simp

theorem mem_foldl_seed {names : List String} {x : String} :
    x ∈ names.foldl (fun env y => env.seed y ∅) env ↔ x ∈ env ∨ x ∈ names := by
  rw [Std.ExtTreeMap.mem_iff_isSome_getElem?, getElem?_foldl_seed]
  split_ifs with hx <;> simp [hx]

/-- Two environments of sets are ordered if they bind the same names and all sets are included. -/
theorem le_iff_targets : env.Le env' ↔
    (∀ x, x ∈ env ↔ x ∈ env') ∧ ∀ x, ∀ t ∈ env.targets x, t ∈ env'.targets x := by
  constructor
  · exact fun h => ⟨h.mem_iff, fun x t => h.mem_targets⟩
  · rintro ⟨hmem, hsub⟩ x
    have hx := hmem x
    have hsubx := hsub x
    rw [Std.ExtTreeMap.mem_iff_isSome_getElem?, Std.ExtTreeMap.mem_iff_isSome_getElem?] at hx
    unfold targets at hsubx
    cases hT : env[x]? with
    | none =>
      cases hT' : env'[x]? with
      | none => exact .none
      | some T' => simp [hT, hT'] at hx
    | some T =>
      cases hT' : env'[x]? with
      | none => simp [hT, hT'] at hx
      | some T' =>
        rw [hT, hT'] at hsubx
        exact .some (Domain.le_iff_forall_mem.2 hsubx)

end Environment

namespace PointsTo

/-! ### The starting environment -/

/-- The names that an instruction brings into the analysis: its variables, and its site if it
allocates. -/
def mentions (i : Instruction) : List String :=
  i.operation.definition.toList ++ i.operation.operands ++
    match i.operation with
    | .alloca _ => [siteName i.id]
    | _ => []

theorem mem_uses_toList {op : Operation} {x : String} : x ∈ op.uses.toList ↔ x ∈ op.operands := by
  rw [Std.ExtTreeSet.mem_toList, Operation.mem_uses]

theorem bind_of_alloca {i : Instruction} {dst : String} (h : i.operation = .alloca dst)
    (env : Environment LocationSet) :
    bind env i = Std.ExtTreeMap.insert
      ([dst, siteName i.id].foldl (fun env y => Environment.seed env y ∅) env) dst
      ((env.targets dst).insert (siteName i.id)) := by
  have huses : (Operation.alloca dst).uses.toList = [] := rfl
  have htargets := Environment.targets_foldl_seed env [dst, siteName i.id] dst
  simp only [Environment.targets, List.foldl_cons, List.foldl_nil] at htargets
  simp only [bind, h, huses, Operation.definition, Option.toList_some, List.append_nil,
    List.foldl_cons, List.foldl_nil, htargets, Environment.targets]

theorem bind_of_not_alloca {i : Instruction} (h : ∀ dst, i.operation ≠ .alloca dst)
    (env : Environment LocationSet) :
    bind env i = (i.operation.definition.toList ++ i.operation.uses.toList).foldl
      (fun env y => Environment.seed env y ∅) env := by
  unfold bind
  split
  · rename_i dst hop
    exact absurd hop (h dst)
  · rfl

theorem mentions_of_alloca {i : Instruction} {dst : String} (h : i.operation = .alloca dst) :
    mentions i = [dst, siteName i.id] := by
  simp [mentions, h, Operation.definition, Operation.operands]

theorem mentions_of_not_alloca {i : Instruction} (h : ∀ dst, i.operation ≠ .alloca dst) :
    mentions i = i.operation.definition.toList ++ i.operation.operands := by
  unfold mentions
  split
  · rename_i dst hop
    exact absurd hop (h dst)
  · rw [List.append_nil]

theorem mem_bind {env : Environment LocationSet} {i : Instruction} {x : String} :
    x ∈ bind env i ↔ x ∈ env ∨ x ∈ mentions i := by
  by_cases h : ∃ dst, i.operation = .alloca dst
  · obtain ⟨dst, hop⟩ := h
    rw [bind_of_alloca hop, mentions_of_alloca hop, Std.ExtTreeMap.mem_insert,
      Environment.mem_foldl_seed, Std.LawfulEqOrd.compare_eq_iff_eq]
    constructor
    · rintro (rfl | hx)
      · exact .inr List.mem_cons_self
      · exact hx
    · exact .inr
  · have hop := not_exists.1 h
    rw [bind_of_not_alloca hop, mentions_of_not_alloca hop, Environment.mem_foldl_seed,
      List.mem_append, List.mem_append, mem_uses_toList]

theorem mem_targets_bind {env : Environment LocationSet} {i : Instruction} {x t : String} :
    t ∈ (bind env i).targets x ↔
      t ∈ env.targets x ∨ i.operation = .alloca x ∧ t = siteName i.id := by
  by_cases h : ∃ dst, i.operation = .alloca dst
  · obtain ⟨dst, hop⟩ := h
    rw [bind_of_alloca hop, Environment.mem_targets_insert, Environment.targets_foldl_seed, hop]
    split_ifs with hx
    · subst hx
      rw [Std.ExtTreeSet.mem_insert, Std.LawfulEqOrd.compare_eq_iff_eq]
      simp only [true_and, eq_comm, or_comm]
    · simp [Ne.symm hx]
  · have hop := not_exists.1 h
    rw [bind_of_not_alloca hop, Environment.targets_foldl_seed]
    simp [hop]

/-- **The analysis knows the names that the program mentions.** -/
theorem mem_initialEnvironment {p : Program} {x : String} :
    x ∈ initialEnvironment p ↔ ∃ i ∈ p.instructions, x ∈ mentions i := by
  have hfold : ∀ (is : List Instruction) (env : Environment LocationSet),
      x ∈ is.foldl bind env ↔ x ∈ env ∨ ∃ i ∈ is, x ∈ mentions i := by
    intro is
    induction is with
    | nil => intro env; simp
    | cons i is ih =>
      intro env
      rw [List.foldl_cons, ih, mem_bind]
      simp only [List.exists_mem_cons_iff, or_assoc]
  rw [initialEnvironment, hfold]
  simp

/-- **At first, variables refer to the sites that allocate for them.** -/
theorem mem_targets_initialEnvironment {p : Program} {x t : String} :
    t ∈ (initialEnvironment p).targets x ↔
      ∃ i ∈ p.instructions, i.operation = .alloca x ∧ t = siteName i.id := by
  have hfold : ∀ (is : List Instruction) (env : Environment LocationSet),
      t ∈ Environment.targets (is.foldl bind env) x ↔ t ∈ env.targets x ∨
        ∃ i ∈ is, i.operation = .alloca x ∧ t = siteName i.id := by
    intro is
    induction is with
    | nil => intro env; simp
    | cons i is ih =>
      intro env
      rw [List.foldl_cons, ih, mem_targets_bind]
      simp only [List.exists_mem_cons_iff, or_assoc]
  rw [initialEnvironment, hfold]
  simp [Environment.targets]

/-- Sites are names of the analysis. -/
theorem mem_initialEnvironment_of_mem_targets {p : Program} {x t : String}
    (h : t ∈ (initialEnvironment p).targets x) : t ∈ initialEnvironment p := by
  obtain ⟨i, hi, hop, rfl⟩ := mem_targets_initialEnvironment.1 h
  refine mem_initialEnvironment.2 ⟨i, hi, ?_⟩
  rw [mentions_of_alloca hop]
  exact List.mem_cons_of_mem _ List.mem_cons_self

/-! ### Flows -/

/-- The ways in which references flow to a name (the first argument) from a name (the second), when
references mean what `env` says. -/
inductive Flows (p : Program) (env : Environment LocationSet) : String → String → Prop
  | move {i : Instruction} {dst src : String} :
      i ∈ p.instructions → i.operation = .move dst src → Flows p env dst src
  | phi {i : Instruction} {dst arg : String} {args : List String} :
      i ∈ p.instructions → i.operation = .phi dst args → arg ∈ args → Flows p env dst arg
  | load {i : Instruction} {dst src t : String} :
      i ∈ p.instructions → i.operation = .load dst src → t ∈ env.targets src → Flows p env dst t
  | store {i : Instruction} {dst src t : String} :
      i ∈ p.instructions → i.operation = .store dst src → t ∈ env.targets dst → Flows p env t src

variable {p : Program} {env : Environment LocationSet}

theorem Flows.mono {env' : Environment LocationSet} (hle : env.Le env') {dst src : String}
    (h : Flows p env dst src) : Flows p env' dst src := by
  cases h with
  | move hi hop => exact .move hi hop
  | phi hi hop harg => exact .phi hi hop harg
  | load hi hop ht => exact .load hi hop (hle.mem_targets ht)
  | store hi hop ht => exact .store hi hop (hle.mem_targets ht)

/-- References flow only between names of the analysis, if they refer only to such names. -/
theorem Flows.mem_initialEnvironment
    (henv : ∀ x, ∀ t ∈ env.targets x, t ∈ initialEnvironment p) {dst src : String}
    (h : Flows p env dst src) : dst ∈ initialEnvironment p ∧ src ∈ initialEnvironment p := by
  have hname : ∀ {i : Instruction} {x : String}, i ∈ p.instructions →
      x ∈ i.operation.definition.toList ++ i.operation.operands → x ∈ initialEnvironment p := by
    intro i x hi hx
    exact PointsTo.mem_initialEnvironment.2 ⟨i, hi, List.mem_append_left _ hx⟩
  cases h with
  | move hi hop =>
    exact ⟨hname hi (by simp [hop, Operation.definition]),
      hname hi (by simp [hop, Operation.operands])⟩
  | phi hi hop harg =>
    exact ⟨hname hi (by simp [hop, Operation.definition]),
      hname hi (by simp [hop, Operation.operands, harg])⟩
  | load hi hop ht => exact ⟨hname hi (by simp [hop, Operation.definition]), henv _ _ ht⟩
  | store hi hop ht => exact ⟨henv _ _ ht, hname hi (by simp [hop, Operation.operands])⟩

/-! ### Inclusions -/

theorem mem_staticInclusions {e : Inclusion} :
    e ∈ staticInclusions p ↔ ∃ i ∈ p.instructions, e ∈ staticEdges i := by
  rw [staticInclusions, Std.ExtTreeSet.mem_ofList, List.contains_iff_mem, List.mem_flatMap]
  simp only [Array.mem_toList_iff]

theorem mem_memoryInclusions {found : InclusionSet} (h : memoryInclusions p env = .ok found)
    {e : Inclusion} :
    e ∈ found ↔ ∃ i ∈ p.instructions, ∃ es, memoryEdges env i = .ok es ∧ e ∈ es := by
  obtain ⟨ess, hess, rfl⟩ := map_eq_ok_iff.1 h
  rw [Std.ExtTreeSet.mem_ofList, List.contains_iff_mem, List.mem_flatten]
  constructor
  · rintro ⟨es, hes, he⟩
    obtain ⟨i, hi, hies⟩ := exists_of_mem_mapM hess hes
    exact ⟨i, Array.mem_toList_iff.1 hi, es, hies, he⟩
  · rintro ⟨i, hi, es, hies, he⟩
    obtain ⟨es', hes', hies'⟩ := exists_mem_of_mapM hess (Array.mem_toList_iff.2 hi)
    cases hies.symm.trans hies'
    exact ⟨es, hes', he⟩

theorem mem_staticEdges {i : Instruction} {e : Inclusion} :
    e ∈ staticEdges i ↔ i.operation = .move e.dst e.src ∨
      ∃ args, i.operation = .phi e.dst args ∧ e.src ∈ args := by
  obtain ⟨dst, src⟩ := e
  unfold staticEdges
  cases i.operation with
  | move dst' src' => simp [eq_comm]
  | phi dst' args => simp [and_comm, eq_comm]
  | _ => simp

theorem mem_memoryEdges {i : Instruction} {es : List Inclusion} (h : memoryEdges env i = .ok es)
    {e : Inclusion} :
    e ∈ es ↔ (∃ src, i.operation = .load e.dst src ∧ e.src ∈ env.targets src) ∨
      ∃ dst, i.operation = .store dst e.src ∧ e.dst ∈ env.targets dst := by
  obtain ⟨dst, src⟩ := e
  unfold memoryEdges at h
  cases hop : i.operation with
  | load dst' src' =>
    rw [hop] at h
    obtain ⟨T, hT, rfl⟩ := map_eq_ok_iff.1 h
    rw [Environment.lookup_eq_ok_iff] at hT
    simp [Environment.targets, hT, eq_comm, and_comm]
  | store dst' src' =>
    rw [hop] at h
    obtain ⟨T, hT, rfl⟩ := map_eq_ok_iff.1 h
    rw [Environment.lookup_eq_ok_iff] at hT
    simp [Environment.targets, hT, eq_comm, and_comm]
  | _ =>
    rw [hop] at h
    cases h
    simp

/-- **The inclusions of the analysis are the flows of the program.** -/
theorem mem_edges_iff {found : InclusionSet} (h : memoryInclusions p env = .ok found)
    {e : Inclusion} : e ∈ staticInclusions p ∪ found ↔ Flows p env e.dst e.src := by
  rw [Std.ExtTreeSet.mem_union_iff, mem_staticInclusions, mem_memoryInclusions h]
  constructor
  · rintro (⟨i, hi, he⟩ | ⟨i, hi, es, hes, he⟩)
    · rcases mem_staticEdges.1 he with hop | ⟨args, hop, harg⟩
      · exact .move hi hop
      · exact .phi hi hop harg
    · rcases (mem_memoryEdges hes).1 he with ⟨src, hop, ht⟩ | ⟨dst, hop, ht⟩
      · exact .load hi hop ht
      · exact .store hi hop ht
  · -- an instruction that gives the flow gives the inclusion, as making its inclusions succeeded
    have hmemory : ∀ {i}, i ∈ p.instructions → ((∃ src, i.operation = .load e.dst src ∧
        e.src ∈ env.targets src) ∨ ∃ dst, i.operation = .store dst e.src ∧
        e.dst ∈ env.targets dst) → ∃ i ∈ p.instructions, ∃ es, memoryEdges env i = .ok es ∧
        e ∈ es := by
      intro i hi hedge
      obtain ⟨ess, hess, -⟩ := map_eq_ok_iff.1 h
      obtain ⟨es, -, hes⟩ := exists_mem_of_mapM hess (Array.mem_toList_iff.2 hi)
      exact ⟨i, hi, es, hes, (mem_memoryEdges hes).2 hedge⟩
    intro hflow
    obtain ⟨dst, src⟩ := e
    cases hflow with
    | move hi hop => exact .inl ⟨_, hi, mem_staticEdges.2 (.inl hop)⟩
    | phi hi hop harg => exact .inl ⟨_, hi, mem_staticEdges.2 (.inr ⟨_, hop, harg⟩)⟩
    | load hi hop ht => exact .inr (hmemory hi (.inl ⟨_, hop, ht⟩))
    | store hi hop ht => exact .inr (hmemory hi (.inr ⟨_, hop, ht⟩))

/-- Loads and stores find their references in every environment that binds the names of the
analysis. -/
theorem exists_memoryInclusions (h : ∀ x ∈ initialEnvironment p, x ∈ env) :
    ∃ found, memoryInclusions p env = .ok found := by
  have hedges : ∀ i ∈ p.instructions.toList, ∃ es, memoryEdges env i = .ok es := by
    intro i hi
    have hlookup : ∀ x ∈ i.operation.operands, ∃ T, env.lookup x = .ok T := by
      intro x hx
      have hmem : x ∈ initialEnvironment p := by
        refine mem_initialEnvironment.2 ⟨i, Array.mem_toList_iff.1 hi, ?_⟩
        exact List.mem_append_left _ (List.mem_append_right _ hx)
      obtain ⟨T, hT⟩ := Environment.mem_iff_exists.1 (h x hmem)
      exact ⟨T, Environment.lookup_eq_ok_iff.2 hT⟩
    unfold memoryEdges
    cases hop : i.operation with
    | load dst src =>
      obtain ⟨T, hT⟩ := hlookup src (by simp [hop, Operation.operands])
      exact ⟨_, map_eq_ok_iff.2 ⟨T, hT, rfl⟩⟩
    | store dst src =>
      obtain ⟨T, hT⟩ := hlookup dst (by simp [hop, Operation.operands])
      exact ⟨_, map_eq_ok_iff.2 ⟨T, hT, rfl⟩⟩
    | _ => exact ⟨[], rfl⟩
  obtain ⟨ess, hess⟩ := exists_mapM_eq_ok hedges
  exact ⟨_, map_eq_ok_iff.2 ⟨ess, hess, rfl⟩⟩

end PointsTo

end Dataflow

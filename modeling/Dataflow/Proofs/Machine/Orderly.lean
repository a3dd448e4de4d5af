import Dataflow.Proofs.Location
import Dataflow.Proofs.Machine.Failure
import Dataflow.Proofs.Machine.Writes

/-!
# States with a history are in order

Every variable was written at a time of its own (`State.Stamped`), because times are places in the
history.  Locations are numbered in the order in which they were made, and there are no others
(`State.Numbered`).  References lead to locations (`State.Closed`).

The number of a location is part of its name, and can be read off the name (`cellName_inj`).  So a
new location never takes the name of an old one, whatever the sites are (`State.Numbered.fresh`).
That is the reason why storage and the list of the locations that were made stay in step
(`State.Allotted.act`).  All this holds until one of the counters overflows.
`Record.history_orderly` collects it.
-/

namespace Dataflow.Machine

namespace State

variable {s t : State}

/-! ### Times of writing -/

/-- Variables were written after the start and not in the future, and no two of them at once. -/
structure Stamped (s : State) : Prop where
  bounds : ∀ {x : String} {v time}, s.bindings[x]? = some (v, time) → 1 ≤ time ∧ time ≤ s.clock
  unique : ∀ {x y : String} {v w time}, s.bindings[x]? = some (v, time) →
    s.bindings[y]? = some (w, time) → x = y

/-- Places in a history are after its start, not beyond its end, and all different. -/
theorem Recorded.stamped {writes : List (String × Value)} (h : Recorded writes s) : s.Stamped where
  bounds := by
    intro x v time hx
    obtain ⟨n, rfl, hn⟩ := h.entry.1 hx
    have hlt : n < writes.length := (List.getElem?_eq_some_iff.1 hn.get).1
    have hclock := h.clock
    omega
  unique := by
    intro x y v w time hx hy
    obtain ⟨n, rfl, hn⟩ := h.entry.1 hx
    obtain ⟨m, heq, hm⟩ := h.entry.1 hy
    obtain rfl : n = m := Nat.succ.inj heq
    exact congrArg Prod.fst (Option.some.inj (hn.get.symm.trans hm.get))

/-! ### Numbers of locations -/

/-- There are as many locations as were allocated, one for each number below that. -/
structure Numbered (s : State) : Prop where
  size : s.memory.size = s.allocations
  cell : ∀ {n}, n < s.allocations → ∃! site, cellName site n ∈ s.memory
  name : ∀ {l}, l ∈ s.memory → ∃ site, ∃ n < s.allocations, l = cellName site n

namespace Numbered

theorem empty : Numbered .empty :=
  ⟨by simp [State.empty], by simp [State.empty], by simp [State.empty]⟩

/-- A new location has a name that no location has. -/
theorem fresh (h : s.Numbered) (site : Nat) : cellName site s.allocations ∉ s.memory := by
  intro hmem
  obtain ⟨site', n, hn, hname⟩ := h.name hmem
  obtain ⟨-, rfl⟩ := cellName_inj.1 hname
  omega

theorem of_mem_iff (h : s.Numbered) (hsize : t.memory.size = s.memory.size)
    (hmem : ∀ l, l ∈ t.memory ↔ l ∈ s.memory) (hcount : t.allocations = s.allocations) :
    t.Numbered where
  size := by rw [hsize, hcount, h.size]
  cell := by
    simp only [hmem, hcount]
    exact h.cell
  name := by
    simp only [hmem, hcount]
    exact h.name

theorem allocate (h : s.Numbered) {site : Nat}
    (hmemory : t.memory = s.memory.insert (cellName site s.allocations) none)
    (hcount : t.allocations = s.allocations + 1) : t.Numbered := by
  have hmem : ∀ l, l ∈ t.memory ↔ l = cellName site s.allocations ∨ l ∈ s.memory := by
    intro l
    rw [hmemory, Std.ExtTreeMap.mem_insert, Std.LawfulEqOrd.compare_eq_iff_eq, eq_comm]
  refine ⟨?_, fun {n} hn => ?_, fun {l} hl => ?_⟩
  · have hnew := mt Std.ExtTreeMap.contains_iff_mem.1 (h.fresh site)
    rw [hmemory, Std.ExtTreeMap.size_insert, if_neg hnew, h.size, hcount]
  · rw [hcount, Nat.lt_succ_iff_lt_or_eq] at hn
    simp only [hmem, cellName_inj]
    rcases hn with hn | rfl
    · obtain ⟨site', hsite', hunique⟩ := h.cell hn
      refine ⟨site', .inr hsite', ?_⟩
      rintro site'' (⟨-, rfl⟩ | hmem')
      · omega
      · exact hunique site'' hmem'
    · refine ⟨site, .inl ⟨rfl, rfl⟩, ?_⟩
      rintro site' (⟨rfl, -⟩ | hmem')
      · rfl
      · exact absurd hmem' (h.fresh site')
  · rw [hcount]
    rcases (hmem l).1 hl with rfl | hl
    · exact ⟨site, s.allocations, Nat.lt_succ_self _, rfl⟩
    · obtain ⟨site', n, hn, rfl⟩ := h.name hl
      exact ⟨site', n, Nat.lt_succ_of_lt hn, rfl⟩

end Numbered

/-! ### Locations and their record -/

/-- The locations are those that were made, each of them once, and they are numbered. -/
structure Allotted (made : List String) (s : State) : Prop where
  numbered : s.Numbered
  count : s.allocations = made.length
  mem_iff : ∀ {l}, l ∈ s.memory ↔ l ∈ made
  nodup : made.Nodup

namespace Allotted

theorem empty : Allotted [] .empty :=
  ⟨.empty, rfl, by simp [State.empty], List.nodup_nil⟩

/-- **Actions keep locations and their record in step** until the number of locations overflows. -/
theorem act {r : Record} (h : Allotted r.made r.state) {a : Action}
    (hroom : (r.act a).made.length < UInt64.size) : Allotted (r.act a).made (r.act a).state := by
  rcases r.act_made a with ⟨hmade, hcount, hmemory⟩ | ⟨site, hmade, hcount, hmemory⟩
  · have hkeys : ∀ l, l ∈ (r.act a).state.memory ↔ l ∈ r.state.memory := by
      intro l
      rcases hmemory with hmemory | ⟨l', v, hl', hmemory⟩
      · rw [hmemory]
      · rw [hmemory, mem_insert_of_mem hl']
    have hsize : (r.act a).state.memory.size = r.state.memory.size := by
      rcases hmemory with hmemory | ⟨l', v, hl', hmemory⟩
      · rw [hmemory]
      · simp [hmemory, Std.ExtTreeMap.size_insert, hl']
    rw [hmade]
    exact ⟨h.numbered.of_mem_iff hsize hkeys hcount, hcount.trans h.count,
      fun {l} => (hkeys l).trans h.mem_iff, h.nodup⟩
  · have hfresh : cellName site r.state.allocations ∉ r.made :=
      mt h.mem_iff.2 (h.numbered.fresh site)
    rw [hmade, List.length_append, List.length_singleton, ← h.count] at hroom
    rw [tick_of_lt hroom] at hcount
    rw [hmade]
    refine ⟨h.numbered.allocate hmemory hcount, ?_, fun {l} => ?_, ?_⟩
    · rw [hcount, h.count, List.length_append, List.length_singleton]
    · rw [hmemory, Std.ExtTreeMap.mem_insert, Std.LawfulEqOrd.compare_eq_iff_eq, h.mem_iff,
        List.mem_append, List.mem_singleton, or_comm, eq_comm]
    · refine List.nodup_append.2 ⟨h.nodup, List.pairwise_singleton _ _, ?_⟩
      rintro l hl l' hl' rfl
      exact hfresh (List.mem_singleton.1 hl' ▸ hl)

theorem history {as : List Action} (hroom : (Record.empty.history as).made.length < UInt64.size) :
    Allotted (Record.empty.history as).made (Record.empty.history as).state :=
  Record.history_induction_of_lt (P := fun r => Allotted r.made r.state)
    Record.length_made_le_act Allotted.empty as (fun _ hr _ _ hroom => hr.act hroom) hroom

end Allotted

/-! ### References -/

namespace Closed

/-- Actions keep a state closed, unless they write a reference from outside. -/
theorem attempt (h : s.Closed) {a : Action} (ha : ∀ x l, a ≠ .set x (.reference l))
    (hok : s.attempt a = .ok t) : t.Closed := by
  cases a with
  | set x v =>
    cases hok
    refine h.setVariable fun l hl => ?_
    subst hl
    exact absurd rfl (ha x l)
  | pushInput c =>
    cases hok
    exact ⟨h.value, h.content⟩
  | readInput =>
    obtain ⟨rest, rfl⟩ := attempt_readInput_eq_ok hok
    exact ⟨h.value, h.content⟩
  | allocate site =>
    cases hok
    exact h.allocate site
  | execute i => exact h.executes (execute_eq_ok_iff.1 hok)

theorem history {as : List Action} (has : ∀ x l, Action.set x (.reference l) ∉ as) :
    (Record.empty.history as).state.Closed := by
  refine Record.history_induction (P := fun r => r.state.Closed) ?_ as fun r hr a ha => ?_
  · exact ⟨fun hv => by simp [Record.empty, State.empty, State.value] at hv,
      by simp [Record.empty, State.empty]⟩
  · cases h : r.state.attempt a with
    | error e =>
      rw [Record.act_of_error h]
      exact hr
    | ok t =>
      rw [Record.state_act_of_ok h]
      refine hr.attempt (fun x l heq => ?_) h
      exact has x l (heq ▸ ha)

end Closed

end State

namespace Record

/-- A start without or with constants is the end of a history that writes these. -/
theorem exists_history_of_start {r₀ : Record} (h₀ : r₀ = .empty ∨ ∃ env, r₀ = .ofEnvironment env) :
    ∃ before, r₀ = empty.history before ∧ ∀ x l, Action.set x (.reference l) ∉ before := by
  rcases h₀ with rfl | ⟨env, rfl⟩
  · exact ⟨[], rfl, by simp⟩
  · refine ⟨_, ofEnvironment_eq_history env, fun x l hmem => ?_⟩
    obtain ⟨u, hu, heq⟩ := List.mem_map.1 hmem
    obtain ⟨kv, -, hkv⟩ := List.mem_filterMap.1 hu
    obtain ⟨c, -, rfl⟩ := Option.map_eq_some_iff.1 hkv
    cases heq

/-- **After every history a state is in order**, unless a counter has overflowed.  No two variables
share a time of writing.  Locations are numbered, they are exactly those that were made, and the
next one gets a name that none of them has.  References lead to locations, so a load or store
through a variable never misses its location. -/
theorem history_orderly {r₀ r : Record} (h₀ : r₀ = .empty ∨ ∃ env, r₀ = .ofEnvironment env)
    {as : List Action} (has : ∀ x l, Action.set x (.reference l) ∉ as) (hr : r₀.history as = r)
    (hwrites : r.writes.length < UInt64.size) (hmade : r.made.length < UInt64.size) :
    r.state.Stamped ∧ r.state.Numbered ∧ r.state.Closed ∧
    ((∀ l, l ∈ r.state.memory ↔ l ∈ r.made) ∧ r.made.Nodup ∧
      ∀ site, (r.state.allocate site).1 ∉ r.state.memory) ∧
    ∀ x l, r.state.reference x = .ok l →
      (∀ e, r.state.load l = .error e → e = .uninitialized l) ∧
      ∀ v, ∃ s', r.state.store l v = .ok s' := by
  obtain ⟨before, rfl, hbefore⟩ := exists_history_of_start h₀
  rw [← history_append] at hr
  subst hr
  have hrecorded := State.Recorded.history hwrites
  have hallotted := State.Allotted.history hmade
  have hclosed : (empty.history (before ++ as)).state.Closed :=
    .history fun x l hmem => (List.mem_append.1 hmem).elim (hbefore x l) (has x l)
  exact ⟨hrecorded.stamped, hallotted.numbered, hclosed,
    ⟨fun _ => hallotted.mem_iff, hallotted.nodup, hallotted.numbered.fresh⟩,
    fun _ _ hx => ⟨fun _ => hclosed.load_error_eq hx, hclosed.exists_store hx⟩⟩

/-- Three locations, a reference that is copied after a store, and two actions that fail. -/
def busyHistory : List Action :=
  [.allocate 1, .execute (.ofOperation 11 (.alloca "p")), .set "c" (.constant (.int 5)),
    .execute (.ofOperation 12 (.store "p" "c")), .execute (.ofOperation 13 (.move "q" "p")),
    .execute (.ofOperation 14 (.load "d" "nowhere")), .readInput,
    .execute (.ofOperation 11 (.alloca "r"))]

/-- The copy of the reference leads to the second of the three locations. -/
theorem history_orderly_busyHistory :
    (∀ x l, Action.set x (.reference l) ∉ busyHistory) ∧
    ∃ r, empty.history busyHistory = r ∧ r.made = ["ref_1_0", "ref_11_1", "ref_11_2"] ∧
      r.writes.length < UInt64.size ∧ r.made.length < UInt64.size ∧
      r.state.reference "q" = .ok "ref_11_1" ∧ r.state.Stamped ∧ r.state.Numbered ∧
      "ref_11_1" ∈ r.state.memory ∧ (r.state.allocate 1).1 ∉ r.state.memory ∧
      ∀ v, ∃ s', r.state.store "ref_11_1" v = .ok s' := by
  have hconstants : ∀ x l, Action.set x (.reference l) ∉ busyHistory := by simp [busyHistory]
  have hmade : (empty.history busyHistory).made = ["ref_1_0", "ref_11_1", "ref_11_2"] := by
    decide +kernel
  have hcount : (empty.history busyHistory).writes.length = 4 := by decide +kernel
  have hreference : (empty.history busyHistory).state.reference "q" = .ok "ref_11_1" := by
    decide +kernel
  have hroom : (empty.history busyHistory).writes.length < UInt64.size := by
    rw [hcount]
    decide
  have hroom' : (empty.history busyHistory).made.length < UInt64.size := by
    rw [hmade]
    decide
  obtain ⟨hstamped, hnumbered, -, ⟨hkeys, -, hfresh⟩, hthrough⟩ :=
    history_orderly (.inl rfl) hconstants rfl hroom hroom'
  refine ⟨hconstants, _, rfl, hmade, hroom, hroom', hreference, hstamped, hnumbered, ?_, hfresh 1,
    (hthrough "q" "ref_11_1" hreference).2⟩
  rw [hkeys, hmade]
  decide

end Record

end Dataflow.Machine

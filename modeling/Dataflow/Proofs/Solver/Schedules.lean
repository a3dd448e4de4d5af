import Dataflow.Proofs.Solver.Iteration

/-!
# What schedules remember

A schedule need not evaluate an equation again as long as it is *settled*: since its last evaluation
nothing has changed that it reads.  `Schedule.Fair` says what that takes of a schedule, and both
schedules are fair:

* sweeps settle an equation when they pass it, and any change unsettles all of them
  (`Sweep.fair`),
* a worklist settles the equations that do not wait, and a change unsettles those that read the
  changed name (`Worklist.fair`).

A worklist finds the readers of a name in a dependency graph, which lists exactly these
(`Readers.of_ofEquations`).  It keeps the waiting equations twice, as a queue and as a bitmap.
`Worklist.Valid` says that both tell the same, and all its operations keep it so.
-/

namespace Dataflow.Solver

open Equation

/-- A schedule that forgets no equation.  `Valid` holds of what it remembers, `settled s i` says
that it sees no need to evaluate equation `i`, and `reads i j` that a change by equation `i` matters
to equation `j`. -/
structure Schedule.Fair {n : Nat} {σ : Type} (S : Schedule n σ) (Valid : σ → Prop)
    (settled : σ → Fin n → Prop) (reads : Fin n → Fin n → Prop) : Prop where
  valid : ∀ {s s' i} (changed : Bool), Valid s → S.next s = some (i, s') →
    Valid (S.learn i changed s')
  /-- The schedule stops only where everything is settled. -/
  done : ∀ {s j}, Valid s → S.next s = none → settled s j
  /-- An evaluation without a change settles at most the evaluated equation. -/
  quiet : ∀ {s s' i j}, Valid s → S.next s = some (i, s') → settled (S.learn i false s') j →
    j = i ∨ settled s j
  /-- An evaluation with a change also unsettles those that read the change. -/
  change : ∀ {s s' i j}, Valid s → S.next s = some (i, s') → settled (S.learn i true s') j →
    ¬ reads i j ∧ (j = i ∨ settled s j)

/-! ### Sweeps -/

namespace Sweep

variable {n : Nat}

/-- The equation has been passed in this sweep, and the sweep has changed nothing. -/
def Settled (s : Sweep) (j : Fin n) : Prop := s.changed = false ∧ j.val < s.cursor

/-- The two ways to go on: with the next equation of this sweep, or with the first one of another
sweep. -/
theorem next_cases {s s' : Sweep} {i : Fin n} (h : next n s = some (i, s')) :
    (s.cursor < n ∧ i.val = s.cursor ∧ s' = { s with cursor := s.cursor + 1 }) ∨
      (n ≤ s.cursor ∧ s.changed = true ∧ i.val = 0 ∧
        s' = { cursor := 1, changed := false, finished := s.finished + 1 }) := by
  unfold next at h
  split at h
  · rename_i hc
    simp only [Option.some.injEq, Prod.mk.injEq] at h
    obtain ⟨rfl, rfl⟩ := h
    exact .inl ⟨hc, rfl, rfl⟩
  · split at h
    · rename_i hc hch
      simp only [Option.some.injEq, Prod.mk.injEq] at h
      obtain ⟨rfl, rfl⟩ := h
      exact .inr ⟨by omega, hch.1, rfl, rfl⟩
    · cases h

theorem next_eq_none_iff {s : Sweep} :
    next n s = none ↔ n ≤ s.cursor ∧ (s.changed = false ∨ n = 0) := by
  unfold next
  split
  · simp only [reduceCtorEq, false_iff]
    omega
  · split
    · rename_i hagain
      obtain ⟨hch, hpos⟩ := hagain
      simp only [reduceCtorEq, hch, Bool.true_eq_false, false_or, false_iff]
      omega
    · rename_i hc hch
      simp only [true_iff]
      cases h : s.changed with
      | false => exact ⟨by omega, .inl rfl⟩
      | true => exact ⟨by omega, .inr (by rw [h] at hch; simpa using hch)⟩

theorem fair (n : Nat) :
    (schedule n).Fair (fun _ => True) Settled fun _ _ => True where
  valid := fun _ _ _ => trivial
  done := by
    intro s j _ hnone
    obtain ⟨hc, hch | rfl⟩ := next_eq_none_iff.1 hnone
    · exact ⟨hch, by omega⟩
    · exact j.elim0
  quiet := by
    rintro s s' i j - hnext ⟨hch, hj⟩
    rcases next_cases hnext with ⟨-, hi, rfl⟩ | ⟨-, -, hi, rfl⟩
    · simp only [schedule, learn, Bool.or_false] at hch hj
      by_cases hji : j.val = s.cursor
      · exact .inl (Fin.ext (hji.trans hi.symm))
      · exact .inr ⟨hch, by omega⟩
    · simp only [schedule, learn] at hj
      exact .inl (Fin.ext (by omega))
  change := by
    rintro s s' i j - - ⟨hch, -⟩
    simp [schedule, learn] at hch

end Sweep

/-! ### Readers -/

namespace Readers

variable {n : Nat}

/-- A reader that is known is not added again. -/
theorem of_note_of_mem {i : Fin n} {r : Readers n} {y : String} (hi : i ∈ r.of y) (x : String) :
    (note i r x).of y = r.of y := by
  unfold of note at *
  rw [Std.ExtTreeMap.getElem?_alter]
  by_cases hxy : x = y
  · subst hxy
    cases hr : r[x]? with
    | none => simp [hr] at hi
    | some is =>
      rw [hr, Option.getD_some] at hi
      simp [hi]
  · simp [hxy]

theorem of_note_of_notMem {i : Fin n} {r : Readers n} {y : String} (hi : i ∉ r.of y) (x : String) :
    (note i r x).of y = if y = x then r.of y ++ [i] else r.of y := by
  unfold of note at *
  rw [Std.ExtTreeMap.getElem?_alter]
  by_cases hxy : y = x
  · subst hxy
    cases hr : r[y]? with
    | none => simp
    | some is =>
      rw [hr, Option.getD_some] at hi
      simp [hi]
  · simp [hxy, Ne.symm hxy]

theorem of_foldl_note_of_mem {i : Fin n} {y : String} (deps : List String) {r : Readers n}
    (hi : i ∈ r.of y) : (deps.foldl (note i) r).of y = r.of y := by
  induction deps generalizing r with
  | nil => rfl
  | cons x deps ih =>
    have hof := of_note_of_mem hi x
    rw [List.foldl_cons, ih (hof.symm ▸ hi), hof]

theorem of_foldl_note_of_notMem {i : Fin n} {y : String} (deps : List String) {r : Readers n}
    (hi : i ∉ r.of y) :
    (deps.foldl (note i) r).of y = if y ∈ deps then r.of y ++ [i] else r.of y := by
  induction deps generalizing r with
  | nil => simp
  | cons x deps ih =>
    have hof := of_note_of_notMem hi x
    rw [List.foldl_cons]
    by_cases hxy : y = x
    · rw [if_pos hxy] at hof
      rw [of_foldl_note_of_mem deps (by simp [hof]), hof, if_pos (by simp [hxy])]
    · rw [if_neg hxy] at hof
      rw [ih (hof.symm ▸ hi), hof]
      simp [hxy]

variable {E V : Type} [Equation E V]

/-- Equations that are not known as readers yet are added in their order. -/
theorem of_foldl_deps {es : Array E} {y : String} {is : List (Fin es.size)} (his : is.Nodup)
    {r : Readers es.size} (hnew : ∀ i ∈ is, i ∉ r.of y) :
    (is.foldl (fun r i => (deps (nth es i)).foldl (note i) r) r).of y =
      r.of y ++ is.filter fun j => y ∈ deps (nth es j) := by
  induction is generalizing r with
  | nil => simp
  | cons i is ih =>
    obtain ⟨hi, his⟩ := List.nodup_cons.1 his
    have hof := of_foldl_note_of_notMem (deps (nth es i)) (hnew i List.mem_cons_self)
    rw [List.foldl_cons]
    by_cases hy : y ∈ deps (nth es i)
    · rw [if_pos hy] at hof
      rw [ih his, hof, List.filter_cons_of_pos (by simpa using hy), List.append_assoc]
      · rfl
      · intro j hj hmem
        rcases List.mem_append.1 (hof ▸ hmem) with hmem | hmem
        · exact hnew j (List.mem_cons_of_mem i hj) hmem
        · exact hi (List.mem_singleton.1 hmem ▸ hj)
    · rw [if_neg hy] at hof
      rw [ih his, hof, List.filter_cons_of_neg (by simpa using hy)]
      intro j hj
      rw [hof]
      exact hnew j (List.mem_cons_of_mem i hj)

/-- **The dependency graph lists the readers of a name in order, each of them once.** -/
theorem of_ofEquations (es : Array E) (y : String) :
    (ofEquations es).of y = (List.finRange es.size).filter fun j => y ∈ deps (nth es j) := by
  rw [ofEquations, of_foldl_deps (List.nodup_finRange es.size)]
  · simp [of]
  · simp [of]

theorem mem_of_ofEquations {es : Array E} {j : Fin es.size} {y : String} :
    j ∈ (ofEquations es).of y ↔ y ∈ deps (nth es j) := by
  simp [of_ofEquations]

end Readers

/-! ### Worklists -/

theorem Order.pop?_eq_none_iff {α : Type} {order : Order} {queue : List α} :
    order.pop? queue = none ↔ queue = [] := by
  cases order <;> cases queue <;> simp [Order.pop?]

/-- Whatever the order, an element leaves the queue and the others stay. -/
theorem Order.perm_of_pop? {α : Type} {order : Order} {queue rest : List α} {a : α}
    (h : order.pop? queue = some (a, rest)) : queue.Perm (a :: rest) := by
  cases order with
  | fifo =>
    cases queue with
    | nil => cases h
    | cons b queue =>
      simp only [Order.pop?, Option.some.injEq, Prod.mk.injEq] at h
      obtain ⟨rfl, rfl⟩ := h
      exact .refl _
  | lifo =>
    simp only [Order.pop?, Option.map_eq_some_iff, Prod.mk.injEq] at h
    obtain ⟨b, hb, rfl, rfl⟩ := h
    obtain ⟨init, rfl⟩ := List.getLast?_eq_some_iff.1 hb
    simp

namespace Worklist

variable {n : Nat}

/-- The queue has no repetitions, and the bitmap marks what is in the queue. -/
structure Valid (w : Worklist n) : Prop where
  nodup : w.queue.Nodup
  pending_iff : ∀ i : Fin n, w.pending.get i = true ↔ i ∈ w.queue

theorem valid_full (n : Nat) : (full n).Valid where
  nodup := List.nodup_finRange n
  pending_iff i := by
    show (Vector.replicate n true)[i] = true ↔ i ∈ List.finRange n
    simp

theorem next_cases {order : Order} {w w' : Worklist n} {i : Fin n}
    (h : next order w = some (i, w')) :
    w.queue.Perm (i :: w'.queue) ∧ w'.pending = w.pending.set i false i.isLt := by
  unfold next at h
  split at h
  · cases h
  · rename_i j rest hpop
    simp only [Option.some.injEq, Prod.mk.injEq] at h
    obtain ⟨rfl, rfl⟩ := h
    exact ⟨Order.perm_of_pop? hpop, rfl⟩

/-- Only the chosen equation leaves the queue. -/
theorem eq_or_notMem_of_next {order : Order} {w w' : Worklist n} {i j : Fin n}
    (h : next order w = some (i, w')) (hj : j ∉ w'.queue) : j = i ∨ j ∉ w.queue := by
  by_cases hji : j = i
  · exact .inl hji
  · refine .inr fun hmem => hj ?_
    exact (List.mem_cons.1 ((next_cases h).1.mem_iff.1 hmem)).resolve_left hji

theorem next_eq_none_iff {order : Order} {w : Worklist n} :
    next order w = none ↔ w.queue = [] := by
  rw [← @Order.pop?_eq_none_iff _ order, next]
  split <;> simp_all

theorem get_pending_set (w : Worklist n) (i j : Fin n) (b : Bool) :
    (w.pending.set i b i.isLt).get j = if j = i then b else w.pending.get j := by
  show (w.pending.set i b)[j] = if j = i then b else w.pending[j]
  simp only [Fin.getElem_fin, Vector.getElem_set, Fin.ext_iff, eq_comm]

/-- The chosen equation does not wait any more. -/
theorem Valid.notMem_of_next {order : Order} {w w' : Worklist n} {i : Fin n} (hw : w.Valid)
    (h : next order w = some (i, w')) : i ∉ w'.queue ∧ w'.queue.Nodup :=
  List.nodup_cons.1 ((next_cases h).1.nodup_iff.1 hw.nodup)

theorem Valid.next {order : Order} {w w' : Worklist n} {i : Fin n} (hw : w.Valid)
    (h : next order w = some (i, w')) : w'.Valid := by
  obtain ⟨hperm, hpending⟩ := next_cases h
  obtain ⟨hnot, hnodup⟩ := hw.notMem_of_next h
  refine ⟨hnodup, fun j => ?_⟩
  rw [hpending, get_pending_set]
  split_ifs with hj
  · subst hj
    simp [hnot]
  · rw [hw.pending_iff, hperm.mem_iff, List.mem_cons, or_iff_right hj]

theorem Valid.push {w : Worklist n} (hw : w.Valid) (i : Fin n) : (w.push i).Valid := by
  unfold Worklist.push
  split
  · exact hw
  · rename_i hi
    have hnot : i ∉ w.queue := fun h => hi ((hw.pending_iff i).2 h)
    refine ⟨?_, fun j => ?_⟩
    · rw [(List.perm_append_singleton i w.queue).nodup_iff]
      exact List.nodup_cons.2 ⟨hnot, hw.nodup⟩
    · rw [get_pending_set, List.mem_append, List.mem_singleton]
      split_ifs with hj
      · simp [hj]
      · rw [hw.pending_iff, or_iff_left hj]

theorem mem_queue_push {w : Worklist n} (hw : w.Valid) {i j : Fin n} :
    j ∈ (w.push i).queue ↔ j ∈ w.queue ∨ j = i := by
  unfold push
  split
  · rename_i hi
    constructor
    · exact .inl
    · rintro (hj | rfl)
      · exact hj
      · exact (hw.pending_iff j).1 hi
  · simp

theorem Valid.pushAll {w : Worklist n} (hw : w.Valid) (is : List (Fin n)) :
    (w.pushAll is).Valid := by
  induction is generalizing w with
  | nil => exact hw
  | cons i is ih => exact ih (hw.push i)

theorem mem_queue_pushAll {w : Worklist n} (hw : w.Valid) {is : List (Fin n)} {j : Fin n} :
    j ∈ (w.pushAll is).queue ↔ j ∈ w.queue ∨ j ∈ is := by
  induction is generalizing w with
  | nil => simp [pushAll]
  | cons i is ih =>
    have hstep : w.pushAll (i :: is) = (w.push i).pushAll is := rfl
    rw [hstep, ih (hw.push i), mem_queue_push hw, List.mem_cons, or_assoc]

variable {E V : Type} [Equation E V]

theorem fair (order : Order) (es : Array E) :
    (schedule order es (.ofEquations es)).Fair Valid (fun w j => j ∉ w.queue)
      fun i j => name (nth es i) ∈ deps (nth es j) where
  valid := by
    intro w w' i changed hw hnext
    cases changed with
    | false => exact hw.next hnext
    | true => exact (hw.next hnext).pushAll _
  done := by
    intro w j _ hnone
    have hempty : w.queue = [] := next_eq_none_iff.1 hnone
    simp [hempty]
  quiet := fun _ hnext hj => eq_or_notMem_of_next hnext hj
  change := by
    intro w w' i j hw hnext hj
    -- an equation that does not wait was not queued, so it does not read the changed name
    have hj' : j ∉ (w'.pushAll ((Readers.ofEquations es).of (name (nth es i)))).queue := hj
    rw [mem_queue_pushAll (hw.next hnext), not_or, Readers.mem_of_ofEquations] at hj'
    exact ⟨hj'.2, eq_or_notMem_of_next hnext hj'.1⟩

end Worklist

end Dataflow.Solver

import Dataflow.Proofs.Solver.CutOff
import Mathlib.Data.List.Sort

/-!
# The ledger of a worklist

A worklist does not know what it has done.  A `Ledger` is a worklist that also writes down which
equations it has given out and which ones it has let wait again.  It chooses as the worklist does
(`Ledger.follows`), and a schedule that only remembers more makes the same run
(`Schedule.Follows.run_map`).  So what the ledger says at the end is the past of the run without it.

No entry of a worklist gets lost.  The equations that were given out and those that wait are
together the ones that waited at first and those that were let wait again (`Ledger.Balanced`).
When nothing waits any more, this says how often each equation has been given out: once, and once
more for each time it was let wait again (`Ledger.Balanced.count_taken`).

The queue, the bitmap and the lists of readers are three records of what is to do.
`worklist_bookkeeping` says that they agree before and during every turn of the loop, and what the
evaluations of a run add up to.
-/

namespace Dataflow.Solver

open Equation

/-! ### Schedules that remember more -/

section Follows

variable {E V σ τ : Type} [Equation E V] [Domain V] [DecidableEq V] {es : Array E}

/-- The schedule `T` chooses as `S` does.  It may remember more; `forget` leaves what `S`
remembers. -/
structure Schedule.Follows {n : Nat} (T : Schedule n τ) (S : Schedule n σ) (forget : τ → σ) :
    Prop where
  stop : ∀ {t}, T.next t = none → S.next (forget t) = none
  next : ∀ {t t' i}, T.next t = some (i, t') → S.next (forget t) = some (i, forget t')
  learn : ∀ i changed t, S.learn i changed (forget t) = forget (T.learn i changed t)

/-- The same progress, with something else to remember. -/
def Progress.map {n : Nat} (f : τ → σ) (p : Progress V τ n) : Progress V σ n where
  env := p.env
  schedule := f p.schedule
  evaluations := p.evaluations
  changes := p.changes

/-- **A schedule that only remembers more makes the same run.** -/
theorem Schedule.Follows.run_map {T : Schedule es.size τ} {S : Schedule es.size σ} {forget : τ → σ}
    (h : T.Follows S forget) (budget : Nat) (p : Progress V τ es.size) :
    run es S budget (p.map forget) = ((run es T budget p).1.map forget, (run es T budget p).2) := by
  induction budget generalizing p with
  | zero =>
    cases hT : T.next p.schedule with
    | none =>
      rw [run_of_next_eq_none hT, run_of_next_eq_none (p := p.map forget) (h.stop hT)]
    | some choice =>
      have hS : S.next (p.map forget).schedule = _ := h.next hT
      simp only [run, hS, hT]
      rfl
  | succ budget ih =>
    cases hT : T.next p.schedule with
    | none =>
      rw [run_of_next_eq_none hT, run_of_next_eq_none (p := p.map forget) (h.stop hT)]
    | some choice =>
      obtain ⟨i, t⟩ := choice
      have hS : S.next (p.map forget).schedule = some (i, forget t) := h.next hT
      cases hev : evaluate (nth es i) p.env with
      | error e =>
        have hev' : evaluate (nth es i) (p.map forget).env = .error e := hev
        simp only [run, hS, hT, hev, hev']
      | ok result =>
        obtain ⟨env, changed⟩ := result
        rw [run_succ_of_ok hT hev, run_succ_of_ok hS hev, ← ih]
        simp only [Progress.advance, Progress.map, h.learn]

end Follows

/-! ### Ledgers -/

/-- A worklist that keeps a record of what it does. -/
structure Ledger (n : Nat) where
  worklist : Worklist n
  /-- The equations that were given out, the last one first. -/
  taken : List (Fin n) := []
  /-- The equations that were let wait again, the last one first. -/
  requeued : List (Fin n) := []
  deriving DecidableEq, Repr

theorem Worklist.push_of_pending {n : Nat} {w : Worklist n} {i : Fin n}
    (h : w.pending.get i = true) : w.push i = w :=
  if_pos h

theorem Worklist.queue_push_of_not_pending {n : Nat} {w : Worklist n} {i : Fin n}
    (h : ¬ w.pending.get i = true) : (w.push i).queue = w.queue ++ [i] :=
  congrArg Worklist.queue (if_neg h)

namespace Ledger

variable {n : Nat}

/-- Take the next equation and write it down. -/
def next (order : Order) (l : Ledger n) : Option (Fin n × Ledger n) :=
  (l.worklist.next order).map fun choice =>
    (choice.1, { l with worklist := choice.2, taken := choice.1 :: l.taken })

/-- Let an equation wait, unless it does so already, and write it down. -/
def push (l : Ledger n) (i : Fin n) : Ledger n :=
  if l.worklist.pending.get i then l
  else { l with worklist := l.worklist.push i, requeued := i :: l.requeued }

/-- Let all equations in a list wait. -/
def pushAll (l : Ledger n) (is : List (Fin n)) : Ledger n := is.foldl push l

theorem worklist_push (l : Ledger n) (i : Fin n) : (l.push i).worklist = l.worklist.push i := by
  unfold push
  split
  · rename_i hi
    exact (Worklist.push_of_pending hi).symm
  · rfl

theorem worklist_pushAll (l : Ledger n) (is : List (Fin n)) :
    (l.pushAll is).worklist = l.worklist.pushAll is := by
  induction is generalizing l with
  | nil => rfl
  | cons i is ih =>
    have hstep := ih (l.push i)
    rwa [worklist_push] at hstep

theorem taken_pushAll (l : Ledger n) (is : List (Fin n)) : (l.pushAll is).taken = l.taken := by
  induction is generalizing l with
  | nil => rfl
  | cons i is ih =>
    have hpush : (l.push i).taken = l.taken := by
      unfold push
      split <;> rfl
    exact (ih (l.push i)).trans hpush

theorem next_cases {order : Order} {l l' : Ledger n} {i : Fin n} (h : l.next order = some (i, l')) :
    ∃ w, l.worklist.next order = some (i, w) ∧
      l' = { l with worklist := w, taken := i :: l.taken } := by
  obtain ⟨⟨j, w⟩, hnext, hchoice⟩ := Option.map_eq_some_iff.1 h
  cases hchoice
  exact ⟨w, hnext, rfl⟩

/-- No entry gets lost: what was given out and what waits is what waited at first and what was let
wait again. -/
def Balanced (l : Ledger n) : Prop :=
  (l.taken ++ l.worklist.queue).Perm (List.finRange n ++ l.requeued)

theorem Balanced.next {order : Order} {l l' : Ledger n} {i : Fin n} (hl : l.Balanced)
    (h : l.next order = some (i, l')) : l'.Balanced := by
  obtain ⟨w, hnext, rfl⟩ := next_cases h
  have hqueue : l.worklist.queue.Perm (i :: w.queue) := (Worklist.next_cases hnext).1
  calc i :: l.taken ++ w.queue
      |>.Perm (l.taken ++ i :: w.queue) := List.perm_middle.symm
    _ |>.Perm (l.taken ++ l.worklist.queue) := hqueue.symm.append_left _
    _ |>.Perm (List.finRange n ++ l.requeued) := hl

theorem Balanced.push {l : Ledger n} (hl : l.Balanced) (i : Fin n) : (l.push i).Balanced := by
  unfold Ledger.push
  split
  · exact hl
  -- the equation is entered on both sides, into the queue and into the record
  · rename_i hi
    show (l.taken ++ (l.worklist.push i).queue).Perm (List.finRange n ++ i :: l.requeued)
    rw [Worklist.queue_push_of_not_pending hi, ← List.append_assoc]
    calc l.taken ++ l.worklist.queue ++ [i]
        |>.Perm (i :: (l.taken ++ l.worklist.queue)) := List.perm_append_singleton _ _
      _ |>.Perm (i :: (List.finRange n ++ l.requeued)) := hl.cons i
      _ |>.Perm (List.finRange n ++ i :: l.requeued) := List.perm_middle.symm

theorem Balanced.pushAll {l : Ledger n} (hl : l.Balanced) (is : List (Fin n)) :
    (l.pushAll is).Balanced := by
  induction is generalizing l with
  | nil => exact hl
  | cons i is ih => exact ih (hl.push i)

/-- Where nothing waits, each equation was given out once, and once more for each time it was let
wait again. -/
theorem Balanced.count_taken {l : Ledger n} (hl : l.Balanced) (hempty : l.worklist.queue = [])
    (i : Fin n) : l.taken.count i = 1 + l.requeued.count i := by
  have hcount := hl.count_eq i
  rwa [hempty, List.append_nil, List.count_append,
    List.count_eq_one_of_mem (List.nodup_finRange n) (List.mem_finRange i)] at hcount

theorem Balanced.length_taken {l : Ledger n} (hl : l.Balanced) (hempty : l.worklist.queue = []) :
    l.taken.length = n + l.requeued.length := by
  have hlength := hl.length_eq
  rwa [hempty, List.append_nil, List.length_append, List.length_finRange] at hlength

variable {E V : Type} [Equation E V]

/-- Evaluate what waits, as a worklist does. -/
def schedule (order : Order) (es : Array E) (readers : Readers es.size) :
    Schedule es.size (Ledger es.size) where
  next := next order
  learn i changed l := if changed then l.pushAll (readers.of (name (nth es i))) else l

theorem follows (order : Order) (es : Array E) (readers : Readers es.size) :
    (schedule order es readers).Follows (Worklist.schedule order es readers) worklist where
  stop hnone := Option.map_eq_none_iff.1 hnone
  next hnext := by
    obtain ⟨w, hw, rfl⟩ := next_cases hnext
    exact hw
  learn i changed l := by
    cases changed with
    | false => rfl
    | true => exact (worklist_pushAll l _).symm

end Ledger

/-! ### Runs with a ledger -/

variable {E V : Type} [Equation E V] [Domain V] [DecidableEq V] {es : Array E}

/-- The run of a solver's worklist, with a ledger. -/
abbrev ledgerRun (es : Array E) (env : Environment V) (options : Options) :
    Progress V (Ledger es.size) es.size × Except Error Unit :=
  run es (Ledger.schedule options.order es (.ofEquations es)) options.maxEvaluations
    (start es env { worklist := .full es.size })

theorem worklistRun_eq_ledgerRun (es : Array E) (env : Environment V) (options : Options) :
    worklistRun es env options =
      ((ledgerRun es env options).1.map Ledger.worklist, (ledgerRun es env options).2) :=
  (Ledger.follows options.order es (.ofEquations es)).run_map options.maxEvaluations
    (start es env { worklist := .full es.size })

/-- The ledger accounts for a run: it has an entry for each evaluation, and none gets lost. -/
structure Accounted (p : Progress V (Ledger es.size) es.size) : Prop where
  counted : p.schedule.taken.length = p.evaluations
  balanced : p.schedule.Balanced

theorem Turn.accounted {order : Order} {readers : Readers es.size}
    {p q : Progress V (Ledger es.size) es.size} (hp : Accounted p)
    (h : Turn es (Ledger.schedule order es readers) p q) : Accounted q := by
  obtain @⟨i, l, env, changed, hnext, -⟩ := h
  have hnext : p.schedule.next order = some (i, l) := hnext
  have htaken : l.taken.length = p.evaluations + 1 := by
    obtain ⟨w, -, rfl⟩ := Ledger.next_cases hnext
    rw [List.length_cons, hp.counted]
  cases changed with
  | false => exact ⟨htaken, hp.balanced.next hnext⟩
  | true =>
    refine ⟨?_, (hp.balanced.next hnext).pushAll _⟩
    exact (congrArg List.length (Ledger.taken_pushAll l _)).trans htaken

theorem accounted_ledgerRun (es : Array E) (env : Environment V) (options : Options) :
    Accounted (ledgerRun es env options).1 := by
  refine (turns_run _ _).invariant ⟨rfl, ?_⟩ fun _ _ hp ht => ht.accounted hp
  show (List.finRange es.size).Perm (List.finRange es.size ++ [])
  rw [List.append_nil]

/-- When a worklist is done, nothing waits and each evaluation is written down. -/
theorem ledger_of_worklist {env : Environment V} {options : Options} {solution : Solution V}
    (h : solve .worklist es env options = .ok solution) :
    (ledgerRun es env options).1.schedule.worklist.queue = [] ∧
      solution.evaluations = (ledgerRun es env options).1.schedule.taken.length := by
  have hrun := worklistRun_eq_ledgerRun es env options
  rw [solve_worklist, map_eq_ok_iff] at h
  obtain ⟨⟨⟩, hok, rfl⟩ := h
  have hempty : (worklistRun es env options).1.schedule.queue = [] :=
    Worklist.next_eq_none_iff.1 (next_eq_none_of_ok hok)
  rw [hrun] at hempty ⊢
  exact ⟨hempty, (accounted_ledgerRun es env options).counted.symm⟩

/-! ### The books of a worklist -/

omit [Domain V] [DecidableEq V] in
/-- The readers of a name are listed in increasing order. -/
theorem Readers.sortedLT_of_ofEquations (es : Array E) (x : String) :
    ((ofEquations es).of x).SortedLT := by
  rw [of_ofEquations]
  exact ((List.sortedLT_finRange es.size).pairwise.filter _).sortedLT

/-- Before every turn of the loop, queue and bitmap tell the same. -/
theorem Turns.valid_worklist {order : Order} {env : Environment V}
    {p : Progress V (Worklist es.size) es.size}
    (h : Turns es (Worklist.schedule order es (.ofEquations es)) (start es env (.full es.size)) p) :
    p.schedule.Valid := by
  refine h.invariant (I := fun p => p.schedule.Valid) (Worklist.valid_full es.size) ?_
  rintro p _ hp ⟨hnext, -⟩
  exact (Worklist.fair order es).valid _ hp hnext

/-- **The bookkeeping of a worklist.**  The dependency graph lists the readers of each name in
increasing order.  Before every turn of the loop, and while an equation is evaluated, the queue
holds no equation twice, holds only equations of the system, and the bitmap marks those it holds.  A
run with a ledger is the run without it, and when it is done, the evaluations are as many as the
equations and the entries that were queued again: each equation has been evaluated once, and once
more for each time it was queued again. -/
theorem worklist_bookkeeping (es : Array E) (env : Environment V) (options : Options) :
    (∀ x, ((Readers.ofEquations es).of x).SortedLT ∧
      ∀ i, i ∈ (Readers.ofEquations es).of x ↔ x ∈ deps (nth es i)) ∧
    (∀ p, Turns es (Worklist.schedule options.order es (.ofEquations es))
        (start es env (.full es.size)) p →
      p.schedule.Valid ∧ (∀ i ∈ p.schedule.queue, i.val < es.size) ∧
      ∀ i w, p.schedule.next options.order = some (i, w) → w.Valid ∧ i ∉ w.queue) ∧
    worklistRun es env options =
      ((ledgerRun es env options).1.map Ledger.worklist, (ledgerRun es env options).2) ∧
    ∀ solution, solve .worklist es env options = .ok solution →
      solution.evaluations = (ledgerRun es env options).1.schedule.taken.length ∧
      solution.evaluations = es.size + (ledgerRun es env options).1.schedule.requeued.length ∧
      ∀ i, (ledgerRun es env options).1.schedule.taken.count i =
        1 + (ledgerRun es env options).1.schedule.requeued.count i := by
  refine ⟨fun x => ⟨Readers.sortedLT_of_ofEquations es x, fun i => Readers.mem_of_ofEquations⟩,
    fun p hp => ?_, worklistRun_eq_ledgerRun es env options, fun solution h => ?_⟩
  · have hvalid := hp.valid_worklist
    refine ⟨hvalid, fun i _ => i.isLt, fun i w hnext => ?_⟩
    exact ⟨hvalid.next hnext, (hvalid.notMem_of_next hnext).1⟩
  · have hbalanced := (accounted_ledgerRun es env options).balanced
    obtain ⟨hempty, hcount⟩ := ledger_of_worklist h
    exact ⟨hcount, hcount.trans (hbalanced.length_taken hempty), hbalanced.count_taken hempty⟩

/-- Equations that read names twice, and their own names. -/
def doubledReads : Array ConstantEquation :=
  #[.phi "x" ["a", "x", "x"], .binary .add "y" "x" "x", .phi "z" ["z", "y", "x"]]

/-- A start that makes `x` and `y` different constants. -/
def doubledReadsStart : Environment Flat := .ofList [("a", Flat.constant (.int 1))]

/-- The last equation comes first, and every change lets it wait again, its own included.  Of nine
evaluations five are of that equation. -/
theorem worklist_bookkeeping_doubledReads :
    ((Readers.ofEquations doubledReads).of "x").map Fin.val = [0, 1, 2] ∧
    ((Readers.ofEquations doubledReads).of "x").SortedLT ∧
    (worklistRun doubledReads doubledReadsStart { order := .lifo }).1.schedule.Valid ∧
    ∃ solution, solve .worklist doubledReads doubledReadsStart { order := .lifo } = .ok solution ∧
      solution.evaluations = 9 ∧
      (ledgerRun doubledReads doubledReadsStart { order := .lifo }).1.schedule.requeued.length = 6 ∧
      (ledgerRun doubledReads doubledReadsStart { order := .lifo }).1.schedule.requeued.count
        ⟨2, by decide⟩ = 4 := by
  have hcount : (solve .worklist doubledReads doubledReadsStart { order := .lifo }).map
      (·.evaluations) = .ok 9 := by decide +kernel
  obtain ⟨solution, h, hcount⟩ := map_eq_ok_iff.1 hcount
  obtain ⟨hreaders, hturns, -, hbooks⟩ :=
    worklist_bookkeeping doubledReads doubledReadsStart { order := .lifo }
  obtain ⟨-, hsum, heach⟩ := hbooks solution h
  have hsize : doubledReads.size = 3 := rfl
  have htaken : (ledgerRun doubledReads doubledReadsStart { order := .lifo }).1.schedule.taken.count
      ⟨2, by decide⟩ = 5 := by decide +kernel
  have hlast := heach ⟨2, by decide⟩
  exact ⟨by decide +kernel, (hreaders "x").1, (hturns _ (turns_worklistRun ..)).1, solution, h,
    hcount, by omega, by omega⟩

end Dataflow.Solver

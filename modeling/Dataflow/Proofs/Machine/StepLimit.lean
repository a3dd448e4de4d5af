import Dataflow.Proofs.Machine.Execution

/-!
# The step limit only cuts runs off

The steps of a machine make a sequence, `Machine.after`, that knows nothing of limits.  It comes to
a machine that has halted (`HaltsAfter`), or to one whose next step fails (`FailsAfter`), or it goes
on forever.

A run follows this sequence, and each step takes one off its budget (`runFrom_after`).  So a run
either ends as the sequence does, or is still on its way when the limit is reached
(`run_of_busy`).  `run_follows_steps` says which, for every limit.  A machine that halts with its
last step has halted in time; one whose step after the last fails has not failed yet.
-/

namespace Dataflow.Machine

variable {m d : Machine} {j k : Nat} {e : Error}

/-- None of the machines before the `k`-th has halted. -/
def Busy (m : Machine) (k : Nat) : Prop :=
  ∀ j < k, ∀ d, m.after j = .ok d → d.isHalted = false

/-- The first `k` steps succeed, and the machine that they lead to is the first one that has
halted. -/
def HaltsAfter (m : Machine) (k : Nat) (d : Machine) : Prop :=
  m.Busy k ∧ m.after k = .ok d ∧ d.isHalted = true

/-- The first `k` steps succeed without leading to a machine that has halted, and the next one
fails. -/
def FailsAfter (m : Machine) (k : Nat) (e : Error) : Prop :=
  m.Busy (k + 1) ∧ ∃ d, m.after k = .ok d ∧ d.step = .error e

theorem Busy.mono (h : m.Busy k) (hjk : j ≤ k) : m.Busy j :=
  fun i hi => h i (Nat.lt_of_lt_of_le hi hjk)

theorem Busy.succ (h : m.Busy k) (hd : m.after k = .ok d) (hbusy : d.isHalted = false) :
    m.Busy (k + 1) := by
  intro j hj d' hd'
  rcases Nat.lt_succ_iff_lt_or_eq.1 hj with hj | rfl
  · exact h j hj d' hd'
  · cases hd.symm.trans hd'
    exact hbusy

/-- Steps succeed one after the other. -/
theorem exists_after_of_le (h : m.after k = .ok d) (hjk : j ≤ k) : ∃ d', m.after j = .ok d' := by
  induction k generalizing d with
  | zero => exact ⟨d, (Nat.le_zero.1 hjk) ▸ h⟩
  | succ k ih =>
    rcases Nat.le_succ_iff.1 hjk with hjk | rfl
    · obtain ⟨d₁, hd₁, -⟩ := bind_eq_ok_iff.1 h
      exact ih hd₁ hjk
    · exact ⟨d, h⟩

/-! ### Runs -/

theorem runFrom_of_isHalted (steps budget : Nat) (h : m.isHalted = true) :
    runFrom steps budget m = .ok ⟨m.state, steps⟩ := by
  cases budget <;> simp [runFrom, h]

/-- A run comes by the machines of the sequence, and has taken as many steps as lead there. -/
theorem runFrom_after (hbusy : m.Busy j) (h : m.after j = .ok d) (steps budget : Nat) :
    runFrom steps (j + budget) m = runFrom (steps + j) budget d := by
  -- the sequence grows at its end, where the run has one step of its budget more left
  induction j generalizing d budget with
  | zero =>
    cases h
    simp
  | succ j ih =>
    obtain ⟨d₁, hd₁, hstep⟩ := bind_eq_ok_iff.1 h
    have hd₁busy : d₁.isHalted = false := hbusy j (Nat.lt_succ_self j) d₁ hd₁
    calc runFrom steps (j + 1 + budget) m
        = runFrom steps (j + (budget + 1)) m := by rw [Nat.add_assoc, Nat.add_comm 1]
      _ = runFrom (steps + j) (budget + 1) d₁ := ih (hbusy.mono (Nat.le_succ j)) hd₁ _
      _ = runFrom (steps + (j + 1)) budget d := by simp [runFrom, hd₁busy, hstep, Nat.add_assoc]

variable {p : Program} {s : State} {options : Options}

/-- A run that is still on its way when the limit is reached is given up. -/
theorem run_of_busy (hbusy : (start p s).Busy (options.maxSteps + 1))
    (h : (start p s).after options.maxSteps = .ok d) :
    run p s options = .error (.stepLimit options.maxSteps) := by
  have hd : d.isHalted = false := hbusy _ (Nat.lt_succ_self _) d h
  have hrun := runFrom_after (hbusy.mono (Nat.le_succ _)) h 0 0
  simpa [run, runFrom, hd] using hrun

theorem run_of_haltsAfter (h : (start p s).HaltsAfter k d) :
    run p s options =
      if k ≤ options.maxSteps then .ok ⟨d.state, k⟩ else .error (.stepLimit options.maxSteps) := by
  obtain ⟨hbusy, hd, hhalted⟩ := h
  split_ifs with hk
  · obtain ⟨budget, hbudget⟩ := Nat.exists_eq_add_of_le hk
    rw [run, hbudget, runFrom_after hbusy hd, runFrom_of_isHalted _ _ hhalted, Nat.zero_add]
  · obtain ⟨d', hd'⟩ := exists_after_of_le hd (Nat.le_of_not_le hk)
    exact run_of_busy (hbusy.mono (by omega)) hd'

theorem run_of_failsAfter (h : (start p s).FailsAfter k e) :
    run p s options =
      .error (if k < options.maxSteps then e else .stepLimit options.maxSteps) := by
  obtain ⟨hbusy, d, hd, hstep⟩ := h
  split_ifs with hk
  · obtain ⟨budget, hbudget⟩ := Nat.exists_eq_add_of_lt hk
    have hd' : d.isHalted = false := hbusy k (Nat.lt_succ_self k) d hd
    rw [run, hbudget, Nat.add_assoc, runFrom_after (hbusy.mono (Nat.le_succ k)) hd]
    simp [runFrom, hd', hstep]
  · obtain ⟨d', hd'⟩ := exists_after_of_le hd (Nat.le_of_not_lt hk)
    exact run_of_busy (hbusy.mono (by omega)) hd'

/-- Without an end of one kind or the other, the sequence goes on forever. -/
theorem busy_of_endless (hhalts : ∀ k d, ¬ m.HaltsAfter k d) (hfails : ∀ k e, ¬ m.FailsAfter k e)
    (k : Nat) : m.Busy (k + 1) ∧ ∃ d, m.after k = .ok d := by
  have hgoesOn : ∀ {k d}, m.Busy k → m.after k = .ok d → m.Busy (k + 1) := by
    intro k d hbusy hd
    refine hbusy.succ hd (Bool.eq_false_iff.2 fun hhalted => ?_)
    exact hhalts k d ⟨hbusy, hd, hhalted⟩
  induction k with
  | zero => exact ⟨hgoesOn (fun j hj => absurd hj (Nat.not_lt_zero j)) rfl, m, rfl⟩
  | succ k ih =>
    obtain ⟨hbusy, d, hd⟩ := ih
    cases hstep : d.step with
    | error e => exact absurd ⟨hbusy, d, hd, hstep⟩ (hfails k e)
    | ok d' =>
      have hd' : m.after (k + 1) = .ok d' := bind_eq_ok_iff.2 ⟨d, hd, hstep⟩
      exact ⟨hgoesOn hbusy hd', d', hd'⟩

/-- **A run is the sequence of steps, cut off at the limit.**  If the sequence halts, the run ends
in the same state, provided that the limit allows for all the steps.  If a step of the sequence
fails, so does the run, provided that the limit allows for that step too.  In all other cases the
run is given up at the limit. -/
theorem run_follows_steps (p : Program) (s : State) (options : Options) :
    (∀ k d, (start p s).HaltsAfter k d → run p s options =
      if k ≤ options.maxSteps then .ok ⟨d.state, k⟩ else .error (.stepLimit options.maxSteps)) ∧
    (∀ k e, (start p s).FailsAfter k e → run p s options =
      .error (if k < options.maxSteps then e else .stepLimit options.maxSteps)) ∧
    ((∀ k d, ¬ (start p s).HaltsAfter k d) → (∀ k e, ¬ (start p s).FailsAfter k e) →
      run p s options = .error (.stepLimit options.maxSteps)) := by
  refine ⟨fun k d => run_of_haltsAfter, fun k e => run_of_failsAfter, fun hhalts hfails => ?_⟩
  obtain ⟨hbusy, d, hd⟩ := busy_of_endless hhalts hfails options.maxSteps
  exact run_of_busy hbusy hd

/-! ### A loop that waits -/

/-- A branch that waits for its condition to become false, and then an input. -/
def waitLoop : Program := Program.empty.edits
  [.push (.branch "busy"), .push (.read "x"), .linkBranch 0 true 0, .linkBranch 0 false 1]

/-- The state in which `busy` is `b` and `inputs` are queued. -/
def waitState (b : Bool) (inputs : List Constant) : State :=
  { State.empty.setVariable "busy" (.constant (.bool b)) with input := inputs }

theorem waitLoop_after (k : Nat) :
    (start waitLoop (waitState true [])).after k = .ok (start waitLoop (waitState true [])) := by
  induction k with
  | zero => rfl
  | succ k ih => exact bind_eq_ok_iff.2 ⟨_, ih, rfl⟩

/-- The loop ends with its second step if there is an input, and fails at it if there is none; it
never ends while the condition holds. -/
theorem run_follows_steps_waitLoop :
    (∃ d, (start waitLoop (waitState false [.int 7])).HaltsAfter 2 d ∧
      run waitLoop (waitState false [.int 7]) ⟨2⟩ = .ok ⟨d.state, 2⟩ ∧
      run waitLoop (waitState false [.int 7]) ⟨1⟩ = .error (.stepLimit 1)) ∧
    ((start waitLoop (waitState false [])).FailsAfter 1 .inputExhausted ∧
      run waitLoop (waitState false []) ⟨2⟩ = .error .inputExhausted ∧
      run waitLoop (waitState false []) ⟨1⟩ = .error (.stepLimit 1)) ∧
    (∀ k d, ¬ (start waitLoop (waitState true [])).HaltsAfter k d) ∧
    (∀ k e, ¬ (start waitLoop (waitState true [])).FailsAfter k e) ∧
    ∀ limit, run waitLoop (waitState true []) ⟨limit⟩ = .error (.stepLimit limit) := by
  have hbusy : ∀ inputs, (start waitLoop (waitState false inputs)).Busy 2 := by
    intro inputs j hj d hd
    rcases Nat.lt_succ_iff_lt_or_eq.1 hj with hj | rfl
    · cases Nat.lt_one_iff.1 hj
      cases hd
      rfl
    · cases hd
      rfl
  have hhalts : (start waitLoop (waitState false [.int 7])).HaltsAfter 2 _ :=
    ⟨hbusy _, rfl, rfl⟩
  have hfails : (start waitLoop (waitState false [])).FailsAfter 1 .inputExhausted :=
    ⟨hbusy _, _, rfl, rfl⟩
  have hnever : ∀ k d, ¬ (start waitLoop (waitState true [])).HaltsAfter k d := by
    rintro k d ⟨-, hd, hhalted⟩
    cases (waitLoop_after k).symm.trans hd
    cases hhalted
  have hnot : ∀ k e, ¬ (start waitLoop (waitState true [])).FailsAfter k e := by
    rintro k e ⟨-, d, hd, hstep⟩
    cases (waitLoop_after k).symm.trans hd
    cases hstep
  refine ⟨⟨_, hhalts, ?_, ?_⟩, ⟨hfails, ?_, ?_⟩, hnever, hnot, fun limit => ?_⟩
  · exact (run_follows_steps waitLoop _ ⟨2⟩).1 2 _ hhalts
  · exact (run_follows_steps waitLoop _ ⟨1⟩).1 2 _ hhalts
  · exact (run_follows_steps waitLoop _ ⟨2⟩).2.1 1 _ hfails
  · exact (run_follows_steps waitLoop _ ⟨1⟩).2.1 1 _ hfails
  · exact (run_follows_steps waitLoop _ ⟨limit⟩).2.2 hnever hnot

end Dataflow.Machine

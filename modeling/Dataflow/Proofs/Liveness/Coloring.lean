import Dataflow.Proofs.Liveness.Interference
import Dataflow.Proofs.Machine.Lockstep

/-!
# Colouring the interference graph

A renaming of the variables that keeps the neighbours of the interference graph apart, such as an
assignment of registers, does not change what a program does.  The program and its renamed copy run
in lockstep from states that agree about what is live at the entry, and wherever they get to, their
states agree about what is live there (`Liveness.coloring_preserves_runs`).  The renaming that
changes nothing is a case of this: variables that are not live have no influence on a run.

The machines are related by `Liveness.Shadows`.  An instruction keeps the states related
(`Solved.tracks_execute`): what it reads is live before it, what is live afterwards and not written
was live before, and the variable that is written has an edge to every other that is live
afterwards.  From this follows one step of both machines (`Shadows.step`), and from single steps a
run (`Shadows.after`).
-/

namespace Dataflow

/-- The renaming gives neighbours different names. -/
def InterferenceGraph.IsColoring (g : InterferenceGraph) (color : String → String) : Prop :=
  ∀ u v, g.Adjacent u v → color u ≠ color v

theorem InterferenceGraph.isColoring_iff {g : InterferenceGraph} {color : String → String} :
    g.IsColoring color ↔ ∀ e ∈ g.toList, ∀ v ∈ e.2.toList, color e.1 ≠ color v := by
  simp only [IsColoring, Adjacent, Prod.forall, Std.ExtTreeMap.mem_toList_iff_getElem?_eq_some,
    Std.ExtTreeSet.mem_toList]
  constructor
  · intro h u ns hu v hv
    exact h u v ⟨ns, hu, hv⟩
  · rintro h u v ⟨ns, hu, hv⟩
    exact h u ns hu v hv

instance (g : InterferenceGraph) (color : String → String) : Decidable (g.IsColoring color) :=
  decidable_of_iff _ InterferenceGraph.isColoring_iff.symm

namespace Program

variable {p : Program} {f : String → String}

theorem rename_instruction (n : Nat) :
    Lockstep (fun i i' => i' = i.rename f) (p.instruction n) ((p.rename f).instruction n) := by
  unfold instruction
  simp only [rename, Array.getElem?_map]
  cases p.instructions[n]? with
  | none => exact .error rfl
  | some i => exact .ok rfl

theorem entry?_rename : Program.entry? (p.rename f) = p.entry?.map (·.rename f) := by
  show (p.rename f).instructions[0]? = p.instructions[0]?.map (·.rename f)
  simp [rename]

end Program

namespace Liveness

open Machine (State start)

variable {l : Liveness} {p : Program} {g : InterferenceGraph} {color : String → String}
  {m m' : Machine} {s s' : State}

/-- What is live where control is.  Nothing is live once a machine has halted. -/
def liveAtLocation (l : Liveness) : Option Nat → Except Error LocationSet
  | none => .ok ∅
  | some n => l.liveIn n

/-- The variable is live at the entry of the program. -/
def LiveAtEntry (l : Liveness) (p : Program) (x : String) : Prop :=
  ∃ i, p.entry? = some i ∧ l.LiveBefore i.id x

/-- The machines are at the same place, and their states agree about all that is live there. -/
structure Shadows (l : Liveness) (color : String → String) (m m' : Machine) : Prop where
  location : m'.location = m.location
  state : ∃ live, l.liveAtLocation m.location = .ok live ∧
    m.state.Tracks color (· ∈ live) m'.state

/-- What is written is kept apart from everything else that is live afterwards. -/
theorem ne_of_liveAfter (hp : p.Consistent) (hg : l.interferenceGraph p = .ok g)
    (hcolor : g.IsColoring color) {n : Nat} {x y : String} (hx : p.Defines n x)
    (hy : l.LiveAfter n y) (hne : y ≠ x) : color y ≠ color x :=
  hcolor y x ((adjacent_iff hp hg).2 ⟨hne, n, .inr ⟨hx, hy⟩⟩)

/-- Where control can go, everything live was live after the instruction it came from. -/
theorem Solved.exists_liveAtLocation (hl : l.Solved p) (hp : p.Consistent) {n : Nat}
    {i : Instruction} (hi : p.instructions[n]? = some i) {location : Option Nat}
    (h : Machine.successor i s = .ok location) :
    ∃ live, l.liveAtLocation location = .ok live ∧ ∀ x ∈ live, l.LiveAfter n x := by
  cases location with
  | none => exact ⟨∅, rfl, by simp⟩
  | some t =>
    have hedge : p.Edge n t := (Program.edge_iff hi).2 (Machine.mem_targets_of_successor h)
    obtain ⟨live, hlive⟩ := hl.liveIn (hp.target_lt_size hedge)
    refine ⟨live, hlive, fun x hx => ?_⟩
    exact (hl.after (Program.lt_size hi)).2 ⟨t, hedge, live, hlive, hx⟩

/-- States that agree about what is live before an instruction agree about what is live after it.
They also still agree about the condition of a branch, which is looked at once more to find the
successor. -/
theorem Solved.tracks_execute (hl : l.Solved p) (hp : p.Consistent)
    (hg : l.interferenceGraph p = .ok g) (hcolor : g.IsColoring color) {n : Nat} {i : Instruction}
    (hi : p.instructions[n]? = some i) {live : LocationSet} (hlive : l.liveIn n = .ok live)
    (h : s.Tracks color (· ∈ live) s') :
    Lockstep (State.Tracks color fun x => l.LiveAfter n x ∨ i.operation = .branch x)
      (s.execute i) (s'.execute (i.rename color)) := by
  have hbefore : ∀ {x}, (x ∈ i.operation.operands ∨ l.LiveAfter n x ∧
      i.operation.definition ≠ some x) → x ∈ live := by
    intro x hx
    rw [← liveBefore_iff_mem hlive, hl.before (Program.lt_size hi), Program.uses_iff hi,
      Program.defines_iff hi, Operation.mem_uses]
    exact hx
  have hcondition : ∀ {x}, i.operation = .branch x →
      x ∈ i.operation.operands ∧ i.operation.definition = none := by
    intro x hx
    simp [hx, Operation.operands, Operation.definition]
  refine h.execute (fun x hx => hbefore (.inl hx)) ?_ ?_
  · rintro y (hy | hy) hkept
    · exact hbefore (.inr ⟨hy, hkept⟩)
    · exact hbefore (.inl (hcondition hy).1)
  · rintro x y hx (hy | hy) hne
    · exact ne_of_liveAfter hp hg hcolor ((Program.defines_iff hi).2 hx) hy hne
    · simp [(hcondition hy).2] at hx

/-- One step of a machine and its shadow. -/
theorem Shadows.step (hp : p.Consistent) (hl : l.Solved p) (hg : l.interferenceGraph p = .ok g)
    (hcolor : g.IsColoring color) (h : Shadows l color m m') (hm : m.program = p)
    (hm' : m'.program = p.rename color) :
    Lockstep (fun t t' => Shadows l color t t' ∧ t.program = p ∧ t'.program = p.rename color)
      m.step m'.step := by
  obtain ⟨live, hlive, htracks⟩ := h.state
  unfold Machine.step
  rw [h.location, hm, hm']
  cases hlocation : m.location with
  | none => exact .ok ⟨h, hm, hm'⟩
  | some n =>
    refine (p.rename_instruction n).bind fun i i' hi hrename => ?_
    subst hrename
    rw [Program.instruction_eq_ok_iff] at hi
    rw [hlocation] at hlive
    refine (hl.tracks_execute hp hg hcolor hi hlive htracks).bind fun t t' _ ht => ?_
    refine (ht.successor fun x hx => .inr hx).bind fun location _ hsuccessor heq => ?_
    subst heq
    obtain ⟨next, hnext, hsub⟩ := hl.exists_liveAtLocation hp hi hsuccessor
    exact .ok ⟨⟨rfl, next, hnext, ht.mono fun x hx => .inl (hsub x hx)⟩, rfl, rfl⟩

/-- Any number of steps of a machine and its shadow. -/
theorem Shadows.after (hp : p.Consistent) (hl : l.Solved p) (hg : l.interferenceGraph p = .ok g)
    (hcolor : g.IsColoring color) (h : Shadows l color m m') (hm : m.program = p)
    (hm' : m'.program = p.rename color) (k : Nat) :
    Lockstep (fun t t' => Shadows l color t t' ∧ t.program = p ∧ t'.program = p.rename color)
      (m.after k) (m'.after k) := by
  induction k with
  | zero => exact .ok ⟨h, hm, hm'⟩
  | succ k ih =>
    refine ih.bind fun t t' _ ht => ?_
    obtain ⟨hshadows, ht, ht'⟩ := ht
    exact hshadows.step hp hl hg hcolor ht ht'

/-- At the entry the renamed program is a shadow if the states agree about what is live there. -/
theorem shadows_start (hp : p.Consistent) (hl : l.Solved p)
    (h : s.Tracks color (l.LiveAtEntry p) s') :
    Shadows l color (start p s) (start (p.rename color) s') := by
  have hlocation : (start (p.rename color) s').location = (start p s).location := by
    simp only [start, Program.entry?_rename, Option.map_map]
    rfl
  refine ⟨hlocation, ?_⟩
  unfold start
  cases hentry : p.entry? with
  | none => exact ⟨∅, rfl, h.mono fun x hx => absurd hx (by simp)⟩
  | some i =>
    have hi : p.instructions[0]? = some i := hentry
    obtain ⟨live, hlive⟩ := hl.liveIn (Program.lt_size hi)
    rw [← hp.id hi] at hlive
    exact ⟨live, hlive, h.mono fun x hx => ⟨i, hentry, live, hlive, hx⟩⟩

/-- **A colouring of the interference graph preserves all runs.**  Let the states agree about what
is live at the entry, the second under the new names.  After any number of steps the program and the
renamed program have failed for the same kind of reason, or both are at the same place and agree
about everything that is live there.  With the names unchanged, two states that differ only in
variables that are not live run alike. -/
theorem coloring_preserves_runs (hp : p.Built) {strategy : Solver.Strategy}
    {options : Solver.Options} (h : solve p strategy options = .ok l) :
    ∃ g, l.interferenceGraph p = .ok g ∧
      (∀ color, g.IsColoring color → ∀ s s', s.Tracks color (l.LiveAtEntry p) s' → ∀ k,
        Lockstep (Shadows l color) ((start p s).after k) ((start (p.rename color) s').after k)) ∧
      ∀ s s', s.Tracks id (l.LiveAtEntry p) s' → ∀ k,
        Lockstep (Shadows l id) ((start p s).after k) ((start p s').after k) := by
  have hc := hp.consistent
  have hl := solved_of_solve hc h
  obtain ⟨g, hg⟩ := hl.exists_interferenceGraph hc
  have hruns : ∀ color, g.IsColoring color → ∀ s s', s.Tracks color (l.LiveAtEntry p) s' → ∀ k,
      Lockstep (Shadows l color) ((start p s).after k) ((start (p.rename color) s').after k) :=
    fun color hcolor s s' htracks k =>
      ((shadows_start hc hl htracks).after hc hl hg hcolor rfl rfl k).mono fun _ _ ht => ht.1
  refine ⟨g, hg, hruns, fun s s' htracks k => ?_⟩
  -- a graph without loops is coloured by its own names
  have hid : g.IsColoring id := fun u v huv => ((adjacent_iff hc hg).1 huv).1
  simpa only [Program.rename_id] using hruns id hid s s' htracks k

/-- A loop that reads ahead: `d` is for the next round. -/
def readAhead : Program := Program.empty.edits
  [.push (.read "a"), .push (.move "b" "a"), .push (.phi "c" ["b", "d"]), .push (.read "d"),
    .push (.branch "c"), .sequence [0, 1, 2, 3, 4], .linkBranch 4 true 2]

/-- The names of `readAhead`, with one register for `a` and `b`. -/
def shareRegister (x : String) : String := if x = "a" then "b" else x

/-- What is left in the shared register from before does not matter.  The loop goes on until there
is no input left to read, which is at the same step in both programs. -/
theorem coloring_preserves_runs_readAhead :
    readAhead.Built ∧ ∃ l g, solve readAhead .worklist {} = .ok l ∧
      l.interferenceGraph readAhead = .ok g ∧ g.IsColoring shareRegister ∧
      ∃ s s' : State, s.input = [.int 1, .int 2, .int 0] ∧
        s'.value "b" = .ok (.constant (.int 9)) ∧
        s.Tracks shareRegister (l.LiveAtEntry readAhead) s' ∧
        ∀ k, Lockstep (Shadows l shareRegister) ((start readAhead s).after k)
          ((start (readAhead.rename shareRegister) s').after k) := by
  have hbuilt : readAhead.Built := ⟨_, rfl⟩
  have hlive : (solve readAhead .worklist {} >>= fun l => l.liveIn 0) = .ok (.ofList ["d"]) := by
    decide +kernel
  obtain ⟨l, hl, hlive⟩ := bind_eq_ok_iff.1 hlive
  obtain ⟨g, hg, hruns, -⟩ := coloring_preserves_runs hbuilt hl
  have hcolor : ((solve readAhead .worklist {} >>= fun l => l.interferenceGraph readAhead).map
      fun g => decide (g.IsColoring shareRegister)) = .ok true := by
    decide +kernel
  obtain ⟨g', hg', hcolor⟩ := map_eq_ok_iff.1 hcolor
  rw [hl] at hg'
  obtain rfl : g = g' := Except.ok.inj (hg.symm.trans hg')
  rw [decide_eq_true_eq] at hcolor
  have htracks : State.Tracks shareRegister (l.LiveAtEntry readAhead)
      { input := [.int 1, .int 2, .int 0] }
      { bindings := .ofList [("b", Machine.Value.constant (.int 9), 5)],
        input := [.int 1, .int 2, .int 0] } := by
    refine ⟨rfl, rfl, rfl, rfl, ?_⟩
    rintro x ⟨i, hi, hx⟩
    have hid : i.id = 0 := hbuilt.consistent.id hi
    rw [hid, liveBefore_iff_mem hlive] at hx
    obtain rfl : "d" = x := by simpa using hx
    decide
  exact ⟨hbuilt, l, g, hl, hg, hcolor, _, _, rfl, by decide, htracks, hruns _ hcolor _ _ htracks⟩

end Liveness

end Dataflow

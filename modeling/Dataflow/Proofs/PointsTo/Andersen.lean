import Dataflow.Proofs.PointsTo.Flow
import Dataflow.Proofs.Solver.Budget
import Dataflow.Proofs.Solver.FixedPoint

/-!
# Andersen solutions

An Andersen solution is an environment above the starting one in which references have flowed
wherever they can (`PointsTo.IsAndersen`).  Flows depend on what references mean, so the analysis
finds them in rounds, and each round solves only the inclusions that are known by then.

What holds between rounds is `PointsTo.Underway`: the inclusions found so far are flows, and nothing
has been found that is not in every Andersen solution.  A round keeps this (`Underway.round`).  A
round that brings nothing new has solved all the flows of the environment it leaves, so its result
is complete (`Underway.complete`).  Whatever `solve` returns is therefore the least Andersen
solution (`solve_complete`), and it fails for no other reason than its budget (`solve_error`).
-/

namespace Dataflow.PointsTo

open Solver Equation

variable {p : Program} {env env' : Environment LocationSet}

/-- References have flowed wherever they can, from the sites of the program. -/
structure IsAndersen (p : Program) (env : Environment LocationSet) : Prop where
  above : (initialEnvironment p).Le env
  closed : ∀ {dst src}, Flows p env dst src → ∀ t ∈ env.targets src, t ∈ env.targets dst

/-- The environment is above the starting one and refers only to names of the analysis. -/
structure Within (p : Program) (env : Environment LocationSet) : Prop where
  above : (initialEnvironment p).Le env
  known : ∀ x, ∀ t ∈ env.targets x, t ∈ initialEnvironment p

theorem within_initialEnvironment (p : Program) : Within p (initialEnvironment p) where
  above := .refl _
  known _ _ := mem_initialEnvironment_of_mem_targets

theorem Within.mem_iff (h : Within p env) (x : String) : x ∈ initialEnvironment p ↔ x ∈ env :=
  h.above.mem_iff x

/-! ### Evaluating inclusions -/

/-- An evaluation of an inclusion adds to one set, and nothing that is in no set. -/
theorem evaluates_inclusion {es : Array Inclusion} (h : Evaluates es env env') :
    env.Le env' ∧ ∀ x, ∀ t ∈ env'.targets x, ∃ y, t ∈ env.targets y := by
  obtain ⟨e, -, v, hv, rfl⟩ := h
  obtain ⟨d, s, hd, hs, rfl⟩ := Inclusion.eval_eq_ok_iff.1 hv
  constructor
  · refine (Environment.Le.refl env).insert_right hd (Domain.le_iff_forall_mem.2 fun t ht => ?_)
    exact Std.ExtTreeSet.mem_union_iff.2 (.inl ht)
  · intro x t ht
    rw [Environment.mem_targets_insert] at ht
    split_ifs at ht with hx
    · rcases Std.ExtTreeSet.mem_union_iff.1 ht with ht | ht
      · exact ⟨e.dst, Environment.mem_targets.2 ⟨d, hd, ht⟩⟩
      · exact ⟨e.src, Environment.mem_targets.2 ⟨s, hs, ht⟩⟩
    · exact ⟨x, ht⟩

theorem Within.evaluates {es : Array Inclusion} (h : Within p env) (hev : Evaluates es env env') :
    Within p env' := by
  obtain ⟨hle, hold⟩ := evaluates_inclusion hev
  refine ⟨h.above.trans hle, fun x t ht => ?_⟩
  obtain ⟨y, hy⟩ := hold x t ht
  exact h.known y t hy

theorem Within.iterates {es : Array Inclusion} (h : Within p env) (hit : Iterates es env env') :
    Within p env' ∧ env.Le env' := by
  refine hit.invariant (I := fun env' => Within p env' ∧ env.Le env') ⟨h, .refl env⟩ ?_
  rintro env₁ env₂ ⟨hwithin, hle⟩ hev
  exact ⟨hwithin.evaluates hev, hle.trans (evaluates_inclusion hev).1⟩

/-- The inclusions of a set in order, as the solver gets them. -/
abbrev system (edges : InclusionSet) : Array Inclusion := edges.toList.toArray

theorem mem_system {edges : InclusionSet} {e : Inclusion} : e ∈ system edges ↔ e ∈ edges := by
  simp

/-- Inclusions with the same target all read what it refers to so far. -/
theorem sharedNamesRead_system (edges : InclusionSet) : SharedNamesRead (system edges) := by
  intro e _ e' _ hname _
  refine ⟨List.mem_cons_self, ?_⟩
  rw [hname]
  exact List.mem_cons_self

/-! ### Solving the inclusions of one round -/

section Round

variable {edges : InclusionSet}

/-- Inclusions between names of the analysis can be evaluated wherever these are bound. -/
theorem Within.eval_eq_ok (hwithin : Within p env') {e : Inclusion}
    (he : e.dst ∈ initialEnvironment p ∧ e.src ∈ initialEnvironment p) :
    ∃ v, eval e env' = .ok v :=
  Inclusion.eval_eq_ok ((hwithin.mem_iff _).1 he.1) ((hwithin.mem_iff _).1 he.2)

variable (hwithin : Within p env) (hflows : ∀ e ∈ edges, Flows p env e.dst e.src)

include hwithin hflows

theorem names_of_flows {e : Inclusion} (he : e ∈ system edges) :
    e.dst ∈ initialEnvironment p ∧ e.src ∈ initialEnvironment p :=
  (hflows e (mem_system.1 he)).mem_initialEnvironment hwithin.known

theorem seedAll_system : seedAll (system edges) env = env := by
  refine seedAll_eq_self fun x hx => ?_
  obtain ⟨e, he, rfl⟩ := mem_names.1 hx
  exact (hwithin.mem_iff _).1 (names_of_flows hwithin hflows he).1

/-- An Andersen solution above the environment satisfies the inclusions of its flows. -/
theorem IsAndersen.satisfied {upper : Environment LocationSet} (hupper : IsAndersen p upper)
    (hle : env.Le upper) {e : Inclusion} (he : e ∈ system edges) : Satisfied e upper := by
  have hnames := names_of_flows hwithin hflows he
  obtain ⟨d, hd⟩ := Environment.mem_iff_exists.1 ((hupper.above.mem_iff _).1 hnames.1)
  obtain ⟨s, hs⟩ := Environment.mem_iff_exists.1 ((hupper.above.mem_iff _).1 hnames.2)
  refine Inclusion.satisfied_iff.2 ⟨d, s, hd, hs, fun t ht => ?_⟩
  have hflow : Flows p upper e.dst e.src := (hflows e (mem_system.1 he)).mono hle
  obtain ⟨d', hd', htd⟩ := Environment.mem_targets.1
    (hupper.closed hflow t (Environment.mem_targets.2 ⟨s, hs, ht⟩))
  cases hd.symm.trans hd'
  exact htd

variable {strategy : Strategy} {options : Options}

theorem iterates_of_round {solution : Solution LocationSet}
    (h : Solver.solve strategy (system edges) env options = .ok solution) :
    Iterates (system edges) env solution.environment := by
  have hit := iterates_solve h
  rwa [seedAll_system hwithin hflows] at hit

/-- A round does not leave the Andersen solutions above its start. -/
theorem le_of_round {solution : Solution LocationSet} {upper : Environment LocationSet}
    (h : Solver.solve strategy (system edges) env options = .ok solution)
    (hupper : IsAndersen p upper) (hle : env.Le upper) : solution.environment.Le upper :=
  (iterates_of_round hwithin hflows h).le_of_satisfied (fun e _ => Inclusion.monotone e)
    (fun _ he => hupper.satisfied hwithin hflows hle he) hle

/-- Solving the inclusions of flows fails only by using up the budget. -/
theorem error_of_round {e : Error}
    (h : Solver.solve strategy (system edges) env options = .error e) :
    e = .nonTermination options.maxEvaluations := by
  refine solve_error_of_total (fun env' hit e' he' => ?_) h
  rw [seedAll_system hwithin hflows] at hit
  exact (hwithin.iterates hit).1.eval_eq_ok (names_of_flows hwithin hflows he')

end Round

/-- After a round, its inclusions hold. -/
theorem targets_of_round {edges : InclusionSet} {strategy : Strategy} {options : Options}
    {solution : Solution LocationSet}
    (h : Solver.solve strategy (system edges) env options = .ok solution) {e : Inclusion}
    (he : e ∈ edges) :
    ∀ t ∈ solution.environment.targets e.src, t ∈ solution.environment.targets e.dst := by
  intro t ht
  have hsat := satisfied_of_solve (fun e _ => Inclusion.isLocal e) (sharedNamesRead_system edges) h
    e (mem_system.2 he)
  obtain ⟨d, s, hd, hs, hsub⟩ := Inclusion.satisfied_iff.1 hsat
  obtain ⟨s', hs', hts⟩ := Environment.mem_targets.1 ht
  cases hs.symm.trans hs'
  exact Environment.mem_targets.2 ⟨d, hd, hsub t hts⟩

/-! ### Rounds -/

/-- What a round makes of its start, from the inclusions it knows and the solution of these. -/
def next (r : PointsTo) (edges : InclusionSet) (solution : Solution LocationSet) : PointsTo where
  environment := solution.environment
  edges := edges
  evaluations := r.evaluations + solution.evaluations
  rounds := r.rounds + 1

/-- The options of a round: what the rounds before it have left of the budget. -/
abbrev remaining (options : Options) (r : PointsTo) : Options :=
  { options with maxEvaluations := options.maxEvaluations - r.evaluations }

theorem round_result {r : PointsTo} {found : InclusionSet}
    (h : memoryInclusions p r.environment = .ok found) (strategy : Strategy) (options : Options) :
    (round p strategy options r).result =
      match Solver.solve strategy (system (r.edges ∪ found)) r.environment
        (remaining options r) with
      | .error e => .error (roundError r.evaluations e)
      | .ok solution => .ok (r.next (r.edges ∪ found) solution,
          decide (r.edges ∪ found ≠ r.edges) || decide (solution.environment ≠ r.environment)) := by
  unfold round Solver.solve
  rw [h]
  dsimp only
  generalize Solver.trace strategy (system (r.edges ∪ found)) r.environment
    (remaining options r) = t
  obtain ⟨events, error | solution⟩ := t <;> rfl

/-- What holds between rounds: the inclusions are flows, and no Andersen solution is missed. -/
structure Underway (p : Program) (r : PointsTo) : Prop where
  within : Within p r.environment
  static : ∀ e ∈ staticInclusions p, e ∈ r.edges
  flows : ∀ e ∈ r.edges, Flows p r.environment e.dst e.src
  below : ∀ env, IsAndersen p env → r.environment.Le env

/-- The least Andersen solution, with its flows as inclusions. -/
structure Complete (p : Program) (r : PointsTo) : Prop where
  isAndersen : IsAndersen p r.environment
  least : ∀ env, IsAndersen p env → r.environment.Le env
  edges_eq : ∃ found, memoryInclusions p r.environment = .ok found ∧
    r.edges = staticInclusions p ∪ found

theorem underway_start (p : Program) : Underway p (start p) where
  within := within_initialEnvironment p
  static _ he := he
  flows e he := by
    obtain ⟨found, hfound⟩ := exists_memoryInclusions (p := p) (fun x hx => hx)
    exact (mem_edges_iff hfound).1 (Std.ExtTreeSet.mem_union_iff.2 (.inl he))
  below _ henv := henv.above

namespace Underway

variable {r r' : PointsTo} {strategy : Strategy} {options : Options}

theorem exists_memoryInclusions (hr : Underway p r) :
    ∃ found, memoryInclusions p r.environment = .ok found :=
  PointsTo.exists_memoryInclusions fun x hx => (hr.within.mem_iff x).1 hx

/-- What rounds have collected and a new round finds are the flows of the environment. -/
theorem edges_union (hr : Underway p r) {found : InclusionSet}
    (hfound : memoryInclusions p r.environment = .ok found) :
    r.edges ∪ found = staticInclusions p ∪ found := by
  refine Std.ExtTreeSet.ext_mem fun e => ?_
  constructor
  · intro he
    rcases Std.ExtTreeSet.mem_union_iff.1 he with he | he
    -- inclusions of earlier rounds are found again, as sets have only grown since
    · exact (mem_edges_iff hfound).2 (hr.flows e he)
    · exact Std.ExtTreeSet.mem_union_iff.2 (.inr he)
  · intro he
    rcases Std.ExtTreeSet.mem_union_iff.1 he with he | he
    · exact Std.ExtTreeSet.mem_union_iff.2 (.inl (hr.static e he))
    · exact Std.ExtTreeSet.mem_union_iff.2 (.inr he)

theorem mem_edges_union (hr : Underway p r) {found : InclusionSet}
    (hfound : memoryInclusions p r.environment = .ok found) {e : Inclusion} :
    e ∈ r.edges ∪ found ↔ Flows p r.environment e.dst e.src := by
  rw [hr.edges_union hfound, PointsTo.mem_edges_iff hfound]

/-- A round that succeeds has solved the flows of the environment it started from. -/
theorem round_eq_ok_iff (hr : Underway p r) {more : Bool} :
    (PointsTo.round p strategy options r).result = .ok (r', more) ↔
      ∃ found solution, memoryInclusions p r.environment = .ok found ∧
        Solver.solve strategy (system (r.edges ∪ found)) r.environment (remaining options r) =
          .ok solution ∧ r' = r.next (r.edges ∪ found) solution ∧
        more = (decide (r.edges ∪ found ≠ r.edges) ||
          decide (solution.environment ≠ r.environment)) := by
  obtain ⟨found, hfound⟩ := hr.exists_memoryInclusions
  rw [round_result hfound]
  constructor
  · intro h
    split at h
    · cases h
    · rename_i solution hsol
      cases h
      exact ⟨found, solution, hfound, hsol, rfl, rfl⟩
  · rintro ⟨found', solution, hfound', hsol, rfl, rfl⟩
    cases hfound.symm.trans hfound'
    rw [hsol]

theorem round (hr : Underway p r) {more : Bool}
    (h : (PointsTo.round p strategy options r).result = .ok (r', more)) :
    Underway p r' ∧ r.environment.Le r'.environment := by
  obtain ⟨found, solution, hfound, hsol, rfl, -⟩ := hr.round_eq_ok_iff.1 h
  have hflows := fun e => (hr.mem_edges_union hfound (e := e)).1
  obtain ⟨hwithin, hle⟩ := hr.within.iterates (iterates_of_round hr.within hflows hsol)
  refine ⟨⟨hwithin, fun e he => ?_, fun e he => (hflows e he).mono hle, fun env henv => ?_⟩, hle⟩
  · exact Std.ExtTreeSet.mem_union_iff.2 (.inl (hr.static e he))
  · exact le_of_round hr.within hflows hsol henv (hr.below env henv)

/-- **A round that brings nothing new ends with the least Andersen solution.** -/
theorem complete (hr : Underway p r)
    (h : (PointsTo.round p strategy options r).result = .ok (r', false)) : Complete p r' := by
  have hr' := (hr.round h).1
  obtain ⟨found, solution, hfound, hsol, rfl, hmore⟩ := hr.round_eq_ok_iff.1 h
  -- the round has left the environment as it was, so it has solved the flows of its own result
  have hsame : solution.environment = r.environment := by
    by_contra hne
    simp [hne] at hmore
  have hfound' : memoryInclusions p solution.environment = .ok found := hsame ▸ hfound
  refine ⟨⟨hr'.within.above, fun hflow => ?_⟩, hr'.below, found, hfound', hr.edges_union hfound⟩
  rw [next, hsame] at hflow
  exact targets_of_round hsol ((hr.mem_edges_union hfound (e := ⟨_, _⟩)).2 hflow)

/-- Rounds fail only by using up the budget. -/
theorem round_error (hr : Underway p r) {e : Error}
    (h : (PointsTo.round p strategy options r).result = .error e) :
    ∃ n, e = .nonTermination n := by
  obtain ⟨found, hfound⟩ := hr.exists_memoryInclusions
  rw [round_result hfound] at h
  split at h
  · rename_i e' herr
    cases h
    rw [error_of_round hr.within (fun e => (hr.mem_edges_union hfound).1) herr]
    exact ⟨_, rfl⟩
  · cases h

end Underway

/-! ### All rounds -/

section Saturate

variable {r r' : PointsTo} {strategy : Strategy} {options : Options}

theorem saturate_succ_result (limit : Nat) :
    (saturate p strategy options (limit + 1) r).result =
      match (round p strategy options r).result with
      | .error e => .error e
      | .ok (r', true) => (saturate p strategy options limit r').result
      | .ok (r', false) => .ok r' := by
  rw [saturate]
  dsimp only
  generalize round p strategy options r = t
  obtain ⟨events, error | ⟨r', _ | _⟩⟩ := t <;> rfl

theorem saturate_complete {limit : Nat} (hr : Underway p r)
    (h : (saturate p strategy options limit r).result = .ok r') : Complete p r' := by
  induction limit generalizing r with
  | zero => cases h
  | succ limit ih =>
    rw [saturate_succ_result] at h
    split at h
    · cases h
    · rename_i r₁ hround
      exact ih (hr.round hround).1 h
    · rename_i r₁ hround
      cases h
      exact hr.complete hround

theorem saturate_error {limit : Nat} {e : Error} (hr : Underway p r)
    (h : (saturate p strategy options limit r).result = .error e) : ∃ n, e = .nonTermination n := by
  induction limit generalizing r with
  | zero =>
    cases h
    exact ⟨_, rfl⟩
  | succ limit ih =>
    rw [saturate_succ_result] at h
    split at h
    · rename_i e' hround
      cases h
      exact hr.round_error hround
    · rename_i r₁ hround
      exact ih (hr.round hround).1 h
    · cases h

/-- **The analysis gives the least Andersen solution**, whatever the solver. -/
theorem solve_complete (h : solve p strategy options = .ok r) : Complete p r :=
  saturate_complete (underway_start p) h

theorem solve_error {e : Error} (h : solve p strategy options = .error e) :
    ∃ n, e = .nonTermination n :=
  saturate_error (underway_start p) h

end Saturate

end Dataflow.PointsTo

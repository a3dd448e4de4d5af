import Dataflow.Proofs.PointsTo.Andersen
import Mathlib.Data.Finset.Prod

/-!
# The rounds of the analysis end

Between the names of a program there are only so many pairs.  A set can still grow as long as some
name is missing from it, and a flow can still be found as long as its inclusion is missing from
those collected, so both are counted in pairs (`PointsTo.lacking`).  Every change within a round and
every round that brings something new takes a pair from the count.  A budget that pays for all of
them is enough for every strategy (`exists_budget`), and with it the analysis is what it should be:
the least Andersen solution, found for every program (`solve_least_andersen`).
-/

namespace Dataflow.PointsTo

open Solver Equation

variable {p : Program} {env env' : Environment LocationSet}

/-! ### Counting pairs of names -/

/-- The pairs of names of the analysis. -/
def pairs (p : Program) : Finset (String × String) :=
  (initialEnvironment p).keys.toFinset ×ˢ (initialEnvironment p).keys.toFinset

theorem mem_pairs {x y : String} :
    (x, y) ∈ pairs p ↔ x ∈ initialEnvironment p ∧ y ∈ initialEnvironment p := by
  simp [pairs]

/-- The pairs of names that a relation does not hold of. -/
def gaps (p : Program) (R : String → String → Prop) [DecidableRel R] : Finset (String × String) :=
  (pairs p).filter fun q => ¬ R q.1 q.2

/-- How many pairs of names a relation does not hold of. -/
def lacking (p : Program) (R : String → String → Prop) [DecidableRel R] : Nat := (gaps p R).card

section Lacking

variable {R R' : String → String → Prop} [DecidableRel R] [DecidableRel R']

theorem mem_gaps {x y : String} : (x, y) ∈ gaps p R ↔ (x, y) ∈ pairs p ∧ ¬ R x y :=
  Finset.mem_filter

theorem gaps_subset (hsub : ∀ x y, R x y → R' x y) : gaps p R' ⊆ gaps p R := by
  rintro ⟨x, y⟩ hxy
  obtain ⟨hpair, hR'⟩ := mem_gaps.1 hxy
  exact mem_gaps.2 ⟨hpair, fun hR => hR' (hsub x y hR)⟩

theorem lacking_le (hsub : ∀ x y, R x y → R' x y) : lacking p R' ≤ lacking p R :=
  Finset.card_le_card (gaps_subset hsub)

theorem lacking_lt (hsub : ∀ x y, R x y → R' x y) {x y : String} (hxy : (x, y) ∈ pairs p)
    (hnew : R' x y) (hold : ¬ R x y) : lacking p R' < lacking p R :=
  card_filter_lt_card_filter (fun q => mt (hsub q.1 q.2)) hxy hold (not_not.2 hnew)

end Lacking

/-- How much the sets of an environment can still grow. -/
abbrev roomInSets (p : Program) (env : Environment LocationSet) : Nat :=
  lacking p fun x t => t ∈ env.targets x

/-- How many inclusions can still be found. -/
abbrev roomInEdges (p : Program) (edges : InclusionSet) : Nat :=
  lacking p fun dst src => (⟨dst, src⟩ : Inclusion) ∈ edges

/-- An environment that grows leaves less room. -/
theorem roomInSets_lt (hwithin : Within p env') (hle : env.Le env') (hne : env' ≠ env) :
    roomInSets p env' < roomInSets p env := by
  -- were all sets of the larger environment included in those of the smaller, they would be equal
  have hnew : ∃ x t, t ∈ env'.targets x ∧ t ∉ env.targets x := by
    by_contra hno
    push Not at hno
    have hle' : env'.Le env := Environment.le_iff_targets.2 ⟨fun x => (hle.mem_iff x).symm, hno⟩
    exact hne (hle'.antisymm hle)
  obtain ⟨x, t, hnew, hold⟩ := hnew
  obtain ⟨T, hT, -⟩ := Environment.mem_targets.1 hnew
  have hx : x ∈ initialEnvironment p :=
    (hwithin.mem_iff x).2 (Environment.mem_iff_exists.2 ⟨T, hT⟩)
  exact lacking_lt (fun x t => hle.mem_targets) (mem_pairs.2 ⟨hx, hwithin.known x t hnew⟩) hnew
    hold

/-! ### One round -/

section Round

variable {edges : InclusionSet} (hwithin : Within p env)
  (hflows : ∀ e ∈ edges, Flows p env e.dst e.src)

include hwithin hflows

/-- A round has at most one inclusion for each pair of names. -/
theorem size_system_le : (system edges).size ≤ (pairs p).card := by
  have hnodup : (edges.toList.map fun e => (e.dst, e.src)).Nodup := by
    have hdistinct : edges.toList.Nodup := by
      refine Std.ExtTreeSet.distinct_toList.imp fun hab h => hab ?_
      rw [h]
      exact Std.ReflCmp.compare_self
    refine hdistinct.map fun e e' h => ?_
    cases e
    cases e'
    cases h
    rfl
  have hsub : (edges.toList.map fun e => (e.dst, e.src)).toFinset ⊆ pairs p := by
    intro q hq
    obtain ⟨e, he, rfl⟩ := List.mem_map.1 (List.mem_toFinset.1 hq)
    exact mem_pairs.2 (names_of_flows hwithin hflows (by simpa using he))
  calc (system edges).size = (edges.toList.map fun e => (e.dst, e.src)).length := by simp
    _ = (edges.toList.map fun e => (e.dst, e.src)).toFinset.card :=
      (List.toFinset_card_of_nodup hnodup).symm
    _ ≤ (pairs p).card := Finset.card_le_card hsub

/-- The room in the sets, at the price of one round each, pays for the changes of a round. -/
theorem potential_system : Potential (system edges) (Within p)
    (fun env => (pairs p).card * roomInSets p env) fun _ => (system edges).size where
  bound := fun h e he => (h.mem_iff _).1 (names_of_flows hwithin hflows he).1
  total := fun h e he => h.eval_eq_ok (names_of_flows hwithin hflows he)
  keep := Within.evaluates
  pays := by
    intro env₁ i v w h hv hw hne
    have hev : Evaluates (system edges) env₁ (env₁.insert (name (nth (system edges) i)) w) :=
      ⟨_, nth_mem _ i, w, hw, rfl⟩
    have hchange : env₁.insert (name (nth (system edges) i)) w ≠ env₁ := by
      intro hsame
      rw [← hsame, Environment.getElem?_insert, if_pos rfl] at hv
      exact hne (Option.some.inj hv).symm
    have hroom := roomInSets_lt (h.evaluates hev) (evaluates_inclusion hev).1 hchange
    generalize env₁.insert (name (nth (system edges) i)) w = env₂ at hroom ⊢
    calc (pairs p).card * roomInSets p env₂ + (system edges).size
        ≤ (pairs p).card * roomInSets p env₂ + (pairs p).card :=
          Nat.add_le_add_left (size_system_le hwithin hflows) _
      _ = (pairs p).card * (roomInSets p env₂ + 1) := (Nat.mul_succ _ _).symm
      _ ≤ (pairs p).card * roomInSets p env₁ := Nat.mul_le_mul_left _ hroom

end Round

/-! ### All rounds -/

/-- The rounds that can still follow: one for each pair that can be found, and the last one. -/
def roundsLeft (p : Program) (r : PointsTo) : Nat :=
  roomInEdges p r.edges + roomInSets p r.environment + 1

/-- The evaluations that can still follow: a round for each change, and for each round. -/
def evaluationsLeft (p : Program) (r : PointsTo) : Nat :=
  (pairs p).card * roomInSets p r.environment + (pairs p).card * roundsLeft p r

namespace Underway

variable {r r' : PointsTo} {strategy : Strategy} {options : Options}

/-- A round that brings something new leaves fewer rounds. -/
theorem roundsLeft_lt (hr : Underway p r)
    (h : (PointsTo.round p strategy options r).result = .ok (r', true)) :
    roundsLeft p r' < roundsLeft p r := by
  obtain ⟨hr', hle⟩ := hr.round h
  obtain ⟨found, solution, hfound, -, rfl, hmore⟩ := hr.round_eq_ok_iff.1 h
  have hsub : ∀ e ∈ r.edges, e ∈ r.edges ∪ found :=
    fun e he => Std.ExtTreeSet.mem_union_iff.2 (.inl he)
  have hedges_le : roomInEdges p (r.edges ∪ found) ≤ roomInEdges p r.edges :=
    lacking_le fun dst src => hsub ⟨dst, src⟩
  have hsets_le : roomInSets p solution.environment ≤ roomInSets p r.environment :=
    lacking_le fun x t => hle.mem_targets
  show roomInEdges p (r.edges ∪ found) + roomInSets p solution.environment + 1 <
    roomInEdges p r.edges + roomInSets p r.environment + 1
  by_cases hsame : solution.environment = r.environment
  · -- no set has changed, so an inclusion is new
    have hnew : ∃ e ∈ r.edges ∪ found, e ∉ r.edges := by
      by_contra hno
      push Not at hno
      have hedges : r.edges ∪ found = r.edges :=
        Std.ExtTreeSet.ext_mem fun e => ⟨hno e, hsub e⟩
      simp [hsame, hedges] at hmore
    obtain ⟨e, he, hold⟩ := hnew
    have hnames := ((hr.mem_edges_union hfound).1 he).mem_initialEnvironment hr.within.known
    have hlt : roomInEdges p (r.edges ∪ found) < roomInEdges p r.edges :=
      lacking_lt (fun dst src => hsub ⟨dst, src⟩) (mem_pairs.2 hnames) he hold
    omega
  · have hlt : roomInSets p solution.environment < roomInSets p r.environment :=
      roomInSets_lt hr'.within hle hsame
    omega

/-- A round succeeds if the budget has one left, and uses no more than it takes from the room. -/
theorem round_ok_of_budget (hr : Underway p r) (strategy : Strategy)
    (hbudget : r.evaluations + (pairs p).card * roomInSets p r.environment + (pairs p).card ≤
      options.maxEvaluations) :
    ∃ r' more, (PointsTo.round p strategy options r).result = .ok (r', more) ∧
      r'.evaluations + (pairs p).card * roomInSets p r'.environment ≤
        r.evaluations + (pairs p).card * roomInSets p r.environment + (pairs p).card := by
  obtain ⟨found, hfound⟩ := hr.exists_memoryInclusions
  have hflows := fun e => (hr.mem_edges_union hfound (e := e)).1
  have hseed := seedAll_system hr.within hflows
  have hsize := size_system_le hr.within hflows
  have hremaining : (pairs p).card * roomInSets p r.environment + (system (r.edges ∪ found)).size ≤
      (remaining options r).maxEvaluations := by
    dsimp only
    omega
  obtain ⟨solution, hsol, hle⟩ := solve_ok_of_budget (potential_system hr.within hflows)
    (hseed.symm ▸ hr.within) strategy (hseed.symm ▸ hremaining)
  rw [hseed] at hle
  refine ⟨r.next (r.edges ∪ found) solution, _,
    hr.round_eq_ok_iff.2 ⟨found, solution, hfound, hsol, rfl, rfl⟩, ?_⟩
  dsimp only [next]
  omega

end Underway

/-- **The analysis ends within what is left at its start.** -/
theorem saturate_ok_of_budget {r : PointsTo} {strategy : Strategy} {options : Options}
    {limit : Nat} (hr : Underway p r) (hlimit : roundsLeft p r ≤ limit)
    (hbudget : r.evaluations + evaluationsLeft p r ≤ options.maxEvaluations) :
    ∃ r', (saturate p strategy options limit r).result = .ok r' := by
  induction limit generalizing r with
  | zero => exact absurd hlimit (by simp [roundsLeft])
  | succ limit ih =>
    have hmul : (pairs p).card ≤ (pairs p).card * roundsLeft p r :=
      Nat.le_mul_of_pos_right _ (Nat.succ_pos _)
    unfold evaluationsLeft at hbudget
    have hnext : r.evaluations + (pairs p).card * roomInSets p r.environment + (pairs p).card ≤
        options.maxEvaluations := by omega
    obtain ⟨r', more, hround, hle⟩ := hr.round_ok_of_budget strategy hnext
    rw [saturate_succ_result, hround]
    cases more with
    | false => exact ⟨r', rfl⟩
    | true =>
      have hlt := hr.roundsLeft_lt hround
      have hcost : (pairs p).card * roundsLeft p r' + (pairs p).card ≤
          (pairs p).card * roundsLeft p r := by
        rw [← Nat.mul_succ]
        exact Nat.mul_le_mul_left _ hlt
      refine ih (hr.round hround).1 (by omega) ?_
      unfold evaluationsLeft
      omega

theorem exists_budget (p : Program) : ∃ budget, ∀ strategy (options : Options),
    budget ≤ options.maxEvaluations → ∃ r, solve p strategy options = .ok r := by
  refine ⟨evaluationsLeft p (start p) + roundsLeft p (start p), ?_⟩
  intro strategy options hbudget
  refine saturate_ok_of_budget (underway_start p) (by omega) ?_
  show 0 + evaluationsLeft p (start p) ≤ options.maxEvaluations
  omega

/-! ### The result -/

/-- **The analysis computes the least Andersen solution.**  It fails only by using up its budget,
some budget is enough for every strategy and order, and what it returns is below every other
Andersen solution, with exactly the inclusions that hold there. -/
theorem solve_least_andersen (p : Program) :
    (∀ strategy options e, solve p strategy options = .error e → ∃ n, e = .nonTermination n) ∧
    (∃ budget, ∀ strategy (options : Options), budget ≤ options.maxEvaluations →
      ∃ r, solve p strategy options = .ok r) ∧
    ∀ strategy options r, solve p strategy options = .ok r →
      IsAndersen p r.environment ∧
      (∀ env, IsAndersen p env → r.environment.Le env) ∧
      ∃ found, memoryInclusions p r.environment = .ok found ∧
        r.edges = staticInclusions p ∪ found := by
  refine ⟨fun _ _ _ => solve_error, exists_budget p, fun strategy options r h => ?_⟩
  have hcomplete := solve_complete h
  exact ⟨hcomplete.isAndersen, hcomplete.least, hcomplete.edges_eq⟩

/-- A cell that holds a reference to itself, and is read through a copy of the reference. -/
def selfReference : Program := Program.empty.edits
  [.push (.alloca "cell"), .push (.move "copy" "cell"), .push (.store "cell" "copy"),
    .push (.load "read" "copy"), .sequence [0, 1, 2, 3]]

/-- What is read from the cell is found only after the copy is, and is in every Andersen solution.
One evaluation is not enough to find it. -/
theorem solve_least_andersen_selfReference :
    (∃ e, solve selfReference .chaotic { maxEvaluations := 1 } = .error e ∧
      ∃ n, e = .nonTermination n) ∧
    ∃ r, solve selfReference .worklist {} = .ok r ∧ "ref_0" ∈ r.environment.targets "read" ∧
      IsAndersen selfReference r.environment ∧
      ∀ env, IsAndersen selfReference env → r.environment.Le env := by
  obtain ⟨herror, -, hleast⟩ := solve_least_andersen selfReference
  constructor
  · have hfail : ((solve selfReference .chaotic { maxEvaluations := 1 }).map fun _ => ()) =
        .error (.nonTermination 1) := by decide +kernel
    have hsolve := map_eq_error_iff.1 hfail
    exact ⟨_, hsolve, herror _ _ _ hsolve⟩
  · have hread : ((solve selfReference .worklist {}).map fun r =>
        decide ("ref_0" ∈ r.environment.targets "read")) = .ok true := by decide +kernel
    obtain ⟨r, hsolve, hmem⟩ := map_eq_ok_iff.1 hread
    obtain ⟨handersen, hbelow, -⟩ := hleast .worklist {} r hsolve
    exact ⟨r, hsolve, of_decide_eq_true hmem, handersen, hbelow⟩

end Dataflow.PointsTo

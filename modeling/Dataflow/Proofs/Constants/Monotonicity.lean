import Dataflow.Proofs.Dependable
import Dataflow.Proofs.Solver.Least

/-!
# Constant propagation grows with the literals

Knowing less about the literals means knowing less about all variables: from larger facts to start
from, constant propagation finds larger facts, whichever strategies and budgets the two runs use
(`Constants.solve_monotone`).  The second solution satisfies the equations and is above the first
start, so the first run never gets past it; the two runs are not compared step by step.

The order of facts would allow that a variable without a value gets a constant.  If literals are
only forgotten, that cannot happen either: every variable keeps its fact or is not constant any
more.  An equation that reads something that is not constant gives nothing else
(`ConstantEquation.eq_nac_of_eval`), and all other equations still see what the first solution says.
-/

namespace Dataflow

open Equation Solver

theorem Flat.nac_le_iff {v : Flat} : Domain.Le nac v ↔ v = nac := by
  rw [Flat.le_iff]
  cases v <;> simp

/-- What is computed from something that is not constant is not constant. -/
theorem ConstantEquation.eq_nac_of_eval {e : ConstantEquation} {env : Environment Flat} {v : Flat}
    (h : e.eval env = .ok v) {x : String} (hx : x ∈ e.deps) (hnac : env[x]? = some .nac) :
    v = .nac := by
  have hlookup : env.lookup x = .ok .nac := Environment.lookup_eq_ok_iff.2 hnac
  cases e with
  | binary op dst lhs rhs =>
    obtain ⟨l, r, hl, hr, rfl⟩ := eval_binary_eq_ok_iff.1 h
    rcases List.mem_pair.1 hx with rfl | rfl
    · cases hlookup.symm.trans hl
      rfl
    · cases hlookup.symm.trans hr
      cases l <;> rfl
  | move dst src =>
    obtain rfl := List.mem_singleton.1 hx
    exact (Except.ok.inj (hlookup.symm.trans h)).symm
  | read dst => cases hx
  | phi dst args => exact Flat.nac_le_iff.1 (Environment.le_gather h hx hnac)

namespace Constants

variable {es : Array ConstantEquation} {known env env' : Environment Flat}

/-- The facts of `env` are not constant, or below those of `known`. -/
def ForgetsOnly (known env : Environment Flat) : Prop :=
  ∀ (x : String) v, env[x]? = some v → v = .nac ∨ ∃ w, known[x]? = some w ∧ Domain.Le v w

theorem ForgetsOnly.evaluates (hsat : ∀ e ∈ es, Satisfied e known) (h : ForgetsOnly known env)
    (hev : Evaluates es env env') : ForgetsOnly known env' := by
  refine hev.facts (fun e he env v henv hv => ?_) h
  by_cases hnac : ∃ x ∈ e.deps, env[x]? = some .nac
  · obtain ⟨x, hx, hnac⟩ := hnac
    exact .inl (ConstantEquation.eq_nac_of_eval hv hx hnac)
  · -- the equation reads constants only, so it gives no more than it gives for `known`
    have hle : Environment.LeOn (deps e) env known := by
      intro x hx
      obtain ⟨a, ha⟩ := Environment.mem_iff_exists.1 (e.strict hv x hx)
      rcases henv x a ha with rfl | ⟨b, hb, hab⟩
      · exact absurd ⟨x, hx, ha⟩ hnac
      · exact ⟨a, b, ha, hb, hab⟩
    obtain ⟨v', w', hv', hw', hvw⟩ := e.dependable.eval_le env known hle
    obtain ⟨w, hw, hname⟩ := hsat e he
    obtain rfl : v = v' := Except.ok.inj (hv.symm.trans hv')
    obtain rfl : w = w' := Except.ok.inj (hw.symm.trans hw')
    exact .inr ⟨w, hname, hvw⟩

/-- A start that differs only in names that are not constant. -/
theorem forgetsOnly_seedAll {lower upper : Environment Flat} (habove : (seedAll es lower).Le known)
    (hdiffer : ∀ x : String, upper[x]? = lower[x]? ∨ upper[x]? = some .nac) :
    ForgetsOnly known (seedAll es upper) := by
  intro x v hv
  rw [getElem?_seedAll] at hv
  rcases hdiffer x with hsame | hnac
  · rw [hsame, ← getElem?_seedAll] at hv
    exact .inr (habove.exists_upper hv)
  · rw [hnac, Option.getD_some, ite_self, Option.some.injEq] at hv
    exact .inl hv.symm

/-- **Constant propagation is monotone in the facts it starts from.**  Let no variable have two
equations or, if it has one, a fact at the start, and let the second start bind the same names as
the first to facts that are not smaller.  Then the second solution binds the same names as the first
to facts that are not smaller.  If the second start differs from the first only in names that it
knows not to be constant, so does the second solution. -/
theorem solve_monotone {p : Program} (hes : equations p = .ok es) (hdistinct : (names es).Nodup)
    {lower upper : Environment Flat} (hle : lower.Le upper) (hfresh : ∀ x ∈ names es, x ∉ lower)
    {strategy strategy' : Strategy} {options options' : Options} {s s' : Solution Flat}
    (h : solve p lower strategy options = .ok s)
    (h' : solve p upper strategy' options' = .ok s') :
    s.environment.Le s'.environment ∧
      ((∀ x : String, upper[x]? = lower[x]? ∨ upper[x]? = some .nac) →
        ∀ x : String, s'.environment[x]? = s.environment[x]? ∨
          s'.environment[x]? = some .nac) := by
  rw [solve_of_equations hes] at h h'
  have hwell : ∀ {env}, (∀ x ∈ names es, x ∉ env) → WellPosed es env :=
    wellPosed_of_fresh hdistinct (fun e _ => e.isLocal) fun e _ => e.monotone
  have hfresh' : ∀ x ∈ names es, x ∉ upper := fun x hx => (hle.mem_iff x).not.1 (hfresh x hx)
  have hsol := (solve_isLeastSolution (hwell hfresh) h).isSolution
  have hgrows : s.environment.Le s'.environment := solve_le_solve (hwell hfresh') hle h h'
  refine ⟨hgrows, fun hdiffer x => ?_⟩
  have hforgets : ForgetsOnly s.environment s'.environment :=
    (iterates_solve h').invariant (forgetsOnly_seedAll hsol.above hdiffer) fun _ _ hforgets hev =>
      hforgets.evaluates hsol.satisfied hev
  cases hx : s'.environment[x]? with
  | none => exact .inl (hgrows.getElem?_eq_none hx).symm
  | some v =>
    rcases hforgets x v hx with rfl | ⟨w, hw, hvw⟩
    · exact .inr rfl
    · obtain ⟨v', hv', hwv⟩ := hgrows.exists_upper hw
      obtain rfl : v = v' := Option.some.inj (hx.symm.trans hv')
      rw [hw, hwv.antisymm hvw]
      exact .inl rfl

/-- A loop in which `d` keeps its constant whatever `n` is, and `u` never has a value. -/
def keptConstant : Program := Program.empty.edits
  [.push (.binary .add "a" "one" "one"), .push (.phi "c" ["a", "d"]), .push (.move "d" "c"),
    .push (.binary .lth "more" "d" "n"), .push (.phi "u" []), .push (.binary .mul "w" "u" "n"),
    .push (.branch "more"), .sequence [0, 1, 2, 3, 4, 5, 6], .linkBranch 6 true 1]

/-- The equations of the loop. -/
def keptConstantEquations : Array ConstantEquation :=
  #[.binary .add "a" "one" "one", .phi "c" ["a", "d"], .move "d" "c", .binary .lth "more" "d" "n",
    .phi "u" [], .binary .mul "w" "u" "n"]

/-- The literals of the loop. -/
def keptConstantStart : Environment Flat :=
  .ofList [("one", Flat.constant (.int 1)), ("n", Flat.constant (.int 5))]

/-- Sweeps from the literals, and a worklist after `n` has been forgotten.  What is computed from
`n` is not constant any more, be it a constant or without a value before; `d` is the constant it
was. -/
theorem solve_monotone_keptConstant :
    equations keptConstant = .ok keptConstantEquations ∧ (names keptConstantEquations).Nodup ∧
    ∃ s s', solve keptConstant keptConstantStart .chaotic {} = .ok s ∧
      solve keptConstant (keptConstantStart.insert "n" .nac) .worklist { order := .lifo } = .ok s' ∧
      (["more", "w", "d"].map fun x : String => s.environment[x]?) =
        [some (.constant (.bool true)), some .undef, some (.constant (.int 2))] ∧
      (["more", "w", "d"].map fun x : String => s'.environment[x]?) =
        [some .nac, some .nac, some (.constant (.int 2))] ∧
      s.environment.Le s'.environment ∧
      ∀ x : String, s'.environment[x]? = s.environment[x]? ∨ s'.environment[x]? = some .nac := by
  have hes : equations keptConstant = .ok keptConstantEquations := by decide
  have hdistinct : (names keptConstantEquations).Nodup := by decide
  have hn : keptConstantStart["n"]? = some (.constant (.int 5)) := by decide
  have hle : keptConstantStart.Le (keptConstantStart.insert "n" .nac) :=
    (Environment.Le.refl keptConstantStart).insert_right hn (Flat.le_iff.2 (by simp))
  have hdiffer : ∀ x : String, (keptConstantStart.insert "n" .nac)[x]? = keptConstantStart[x]? ∨
      (keptConstantStart.insert "n" .nac)[x]? = some .nac := by
    intro x
    rw [Environment.getElem?_insert]
    split
    · exact .inr rfl
    · exact .inl rfl
  have hs : ((solve keptConstant keptConstantStart .chaotic {}).map
      fun s => ["more", "w", "d"].map fun x : String => s.environment[x]?) =
        .ok [some (.constant (.bool true)), some .undef, some (.constant (.int 2))] := by decide
  have hs' : ((solve keptConstant (keptConstantStart.insert "n" .nac) .worklist
      { order := .lifo }).map fun s => ["more", "w", "d"].map fun x : String => s.environment[x]?) =
        .ok [some .nac, some .nac, some (.constant (.int 2))] := by decide
  obtain ⟨s, h, hs⟩ := map_eq_ok_iff.1 hs
  obtain ⟨s', h', hs'⟩ := map_eq_ok_iff.1 hs'
  obtain ⟨hgrows, hforgets⟩ := solve_monotone hes hdistinct hle (by decide) h h'
  exact ⟨hes, hdistinct, s, s', h, h', hs, hs', hgrows, hforgets hdiffer⟩

end Constants

end Dataflow

import Dataflow.Flowgraph.Program
import Dataflow.Location
import Dataflow.Solver.Solve

/-!
# Inclusions between sets of references

What a variable or a location may refer to is a set of locations.  Every way in which references
flow is an inclusion between two such sets.  Moves give inclusions at once; loads and stores give
them for each location that their reference may mean.
-/

namespace Dataflow

/-- What `src` may refer to, `dst` may refer to. -/
structure Inclusion where
  dst : String
  src : String
  deriving DecidableEq, Repr

namespace Inclusion

instance : Ord Inclusion where
  compare := compareLex (compareOn Inclusion.dst) (compareOn Inclusion.src)

instance : Std.TransOrd Inclusion :=
  inferInstanceAs (Std.TransCmp (compareLex (compareOn Inclusion.dst) (compareOn Inclusion.src)))

instance : Std.LawfulEqOrd Inclusion where
  eq_of_compare {a b} h := by
    have h' : (compare a.dst b.dst).then (compare a.src b.src) = .eq := h
    rw [Ordering.then_eq_eq] at h'
    cases a
    cases b
    simp only [Std.LawfulEqOrd.compare_eq_iff_eq] at h'
    simp [h'.1, h'.2]

/-- What `dst` may refer to already, and what `src` may refer to. -/
def eval (e : Inclusion) (env : Environment LocationSet) : Except Error LocationSet :=
  match env.lookup e.dst, env.lookup e.src with
  | .error err, _ => .error err
  | .ok _, .error err => .error err
  | .ok d, .ok s => .ok (Domain.extend d s).2

instance : Equation Inclusion LocationSet where
  name := dst
  deps e := [e.dst, e.src]
  eval := eval

/-- The text of an inclusion. -/
def text (e : Inclusion) : String := s!"Alias({e.dst}) >= Alias({e.src})"

instance : ToString Inclusion := ⟨text⟩

end Inclusion

/-- A set of inclusions, ordered by their targets. -/
abbrev InclusionSet := Std.ExtTreeSet Inclusion

namespace PointsTo

/-- Bind the names of an instruction, and let the variable of an allocation refer to its site. -/
def bind (env : Environment LocationSet) (i : Instruction) : Environment LocationSet :=
  let named := (i.operation.definition.toList ++ i.operation.uses.toList).foldl
    (fun env v => Environment.seed env v ∅) env
  match i.operation with
  | .alloca dst =>
    let located := Environment.seed named (siteName i.id) ∅
    located.insert dst ((located[dst]?.getD ∅).insert (siteName i.id))
  | _ => named

/-- What is known before any reference flows. -/
def initialEnvironment (p : Program) : Environment LocationSet :=
  p.instructions.toList.foldl bind ∅

/-- The inclusions of an instruction that hold whatever references mean. -/
def staticEdges (i : Instruction) : List Inclusion :=
  match i.operation with
  | .move dst src => [⟨dst, src⟩]
  | .phi dst args => args.map fun a => ⟨dst, a⟩
  | _ => []

/-- The inclusions of a program that hold whatever references mean. -/
def staticInclusions (p : Program) : InclusionSet :=
  .ofList (p.instructions.toList.flatMap staticEdges)

/-- The inclusions of an instruction if references mean what `env` says. -/
def memoryEdges (env : Environment LocationSet) (i : Instruction) : Except Error (List Inclusion) :=
  match i.operation with
  | .load dst src => (env.lookup src).map fun s => s.toList.map fun t => ⟨dst, t⟩
  | .store dst src => (env.lookup dst).map fun s => s.toList.map fun t => ⟨t, src⟩
  | _ => .ok []

/-- The inclusions of a program if references mean what `env` says. -/
def memoryInclusions (p : Program) (env : Environment LocationSet) : Except Error InclusionSet :=
  (p.instructions.toList.mapM (memoryEdges env)).map fun es => .ofList es.flatten

end PointsTo

end Dataflow

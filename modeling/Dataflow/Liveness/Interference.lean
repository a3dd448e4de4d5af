import Dataflow.Liveness.Equations

/-!
# Interference

Two variables interfere if one of them is written at a point where the other is live afterwards.
Variables that do not interfere can share a register.
-/

namespace Dataflow

/-- An undirected graph on names: each vertex with its neighbours. -/
abbrev InterferenceGraph := Std.ExtTreeMap String LocationSet

namespace InterferenceGraph

/-- Add a vertex. -/
def addVertex (g : InterferenceGraph) (v : String) : InterferenceGraph := g.insertIfNew v ∅

/-- Add `w` to the neighbours of `v`. -/
def addNeighbour (g : InterferenceGraph) (v w : String) : InterferenceGraph :=
  g.alter v fun neighbours => some ((neighbours.getD ∅).insert w)

/-- Add an edge, unless it is a loop. -/
def addEdge (v : String) (g : InterferenceGraph) (w : String) : InterferenceGraph :=
  if w = v then g else addNeighbour (addNeighbour g v w) w v

/-- Add the variables of an instruction as vertices. -/
def addVariables (g : InterferenceGraph) (i : Instruction) : InterferenceGraph :=
  (i.operation.definition.toList ++ i.operation.uses.toList).foldl addVertex g

/-- Add the edges from the variable that an instruction writes to those that are `live` after it. -/
def addInterference (g : InterferenceGraph) (i : Instruction) (live : LocationSet) :
    InterferenceGraph :=
  i.operation.definition.toList.foldl (fun g d => live.toList.foldl (addEdge d) g) g

end InterferenceGraph

namespace Liveness

/-- Add the interference of each instruction of a list. -/
def interfere (l : Liveness) (g : InterferenceGraph) :
    List Instruction → Except Error InterferenceGraph
  | [] => .ok g
  | i :: is =>
    match l.liveOut i.id with
    | .error e => .error e
    | .ok live => l.interfere (g.addInterference i live) is

/-- The interference graph of a program.  All its variables are vertices. -/
def interferenceGraph (l : Liveness) (p : Program) : Except Error InterferenceGraph :=
  l.interfere (p.instructions.toList.foldl InterferenceGraph.addVariables ∅) p.instructions.toList

end Liveness

end Dataflow

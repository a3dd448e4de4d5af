import Dataflow.Flowgraph.Program

/-!
# Drawing programs

The flow graph of a program in the dot language: a box for each instruction, and green and red
arrows for the two edges of a branch.
-/

namespace Dataflow

namespace Instruction

/-- The box of an instruction. -/
def dotVertex (i : Instruction) : String :=
  s!"{i.id} [shape=\"box\", label=\"{i.text}\", style=\"filled\", " ++
    "fillcolor=\"#ffddcc\", fontcolor=\"#000000\"];"

/-- The arrow of a branch for the outcome `taken` of its condition, if that edge is there. -/
def dotBranchEdge (i : Instruction) (taken : Bool) : List String :=
  match i.branchTarget taken with
  | .error _ => []
  | .ok t =>
    if taken then [s!"{i.id} -> {t} [label=\"T\", color=\"#00aa00\"];"]
    else [s!"{i.id} -> {t} [label=\"F\", color=\"#aa0000\"];"]

/-- The arrows that leave an instruction. -/
def dotEdges (i : Instruction) : List String :=
  if i.operation.isBranch then i.dotBranchEdge true ++ i.dotBranchEdge false
  else i.targets.map fun t => s!"{i.id} -> {t};"

end Instruction

/-- The fonts and the shape of lines in every drawing. -/
def dotOptions : List String :=
  ["graph [fontname = \"Courier New\", splines=\"polyline\"]",
    "node [fontname = \"Courier New\"]",
    "edge [fontname = \"Courier New\"]"]

/-- The program as a dot graph. -/
def Program.dot (p : Program) : String :=
  let lines := "\n".intercalate
  let instructions := p.instructions.toList
  "digraph G \x7b\n" ++ lines dotOptions ++ "\n\n" ++
    lines (instructions.map (·.dotVertex)) ++ "\n" ++
    lines (instructions.flatMap (·.dotEdges)) ++ "\n\x7d"

end Dataflow

import Dataflow.Flowgraph.Program
import Dataflow.Json.Codec

/-!
# JSON forms of programs

Operations and the edges of instructions are variants, instructions and programs are records.
-/

namespace Dataflow

open Codec (encode decode)
open Json (ofMembers ofVariant)

instance : Codec BinaryOp where
  encode
    | .add => .ofString "Add"
    | .mul => .ofString "Mul"
    | .lth => .ofString "Lth"
    | .geq => .ofString "Geq"
  decode j :=
    match j.variant? with
    | some ("Add", .null) => some .add
    | some ("Mul", .null) => some .mul
    | some ("Lth", .null) => some .lth
    | some ("Geq", .null) => some .geq
    | _ => none

namespace Operation

/-- The operation with the given JSON form. -/
def ofJson? (j : Json) : Option Operation := do
  match ← j.variant? with
  | ("Binary", body) =>
    match ← body.fields? ["op", "dst", "lhs", "rhs"] with
    | [op, dst, lhs, rhs] =>
      return binary (← decode op) (← decode dst) (← decode lhs) (← decode rhs)
    | _ => none
  | ("Branch", body) =>
    match ← body.fields? ["condition"] with
    | [condition] => return branch (← decode condition)
    | _ => none
  | ("Move", body) =>
    match ← body.fields? ["dst", "src"] with
    | [dst, src] => return move (← decode dst) (← decode src)
    | _ => none
  | ("Alloca", body) =>
    match ← body.fields? ["dst"] with
    | [dst] => return alloca (← decode dst)
    | _ => none
  | ("Load", body) =>
    match ← body.fields? ["dst", "src"] with
    | [dst, src] => return load (← decode dst) (← decode src)
    | _ => none
  | ("Store", body) =>
    match ← body.fields? ["dst", "src"] with
    | [dst, src] => return store (← decode dst) (← decode src)
    | _ => none
  | ("Phi", body) =>
    match ← body.fields? ["dst", "args"] with
    | [dst, args] => return phi (← decode dst) (← decode args)
    | _ => none
  | ("Read", body) =>
    match ← body.fields? ["dst"] with
    | [dst] => return read (← decode dst)
    | _ => none
  | _ => none

/-- The JSON form of an operation. -/
def toJson : Operation → Json
  | binary op dst lhs rhs => ofVariant "Binary" <| ofMembers
      [("op", encode op), ("dst", encode dst), ("lhs", encode lhs), ("rhs", encode rhs)]
  | branch condition => ofVariant "Branch" <| ofMembers [("condition", encode condition)]
  | move dst src => ofVariant "Move" <| ofMembers [("dst", encode dst), ("src", encode src)]
  | alloca dst => ofVariant "Alloca" <| ofMembers [("dst", encode dst)]
  | load dst src => ofVariant "Load" <| ofMembers [("dst", encode dst), ("src", encode src)]
  | store dst src => ofVariant "Store" <| ofMembers [("dst", encode dst), ("src", encode src)]
  | phi dst args => ofVariant "Phi" <| ofMembers [("dst", encode dst), ("args", encode args)]
  | read dst => ofVariant "Read" <| ofMembers [("dst", encode dst)]

end Operation

instance : Codec Operation where
  encode := Operation.toJson
  decode := Operation.ofJson?

/-- The edges of a branch may be left out of an object, and are then empty. -/
instance : Codec Successors where
  encode
    | .sequential targets => ofVariant "Sequential" (encode targets)
    | .branch onTrue onFalse => ofVariant "Branch" <| ofMembers
        [("on_true", encode onTrue), ("on_false", encode onFalse)]
  decode j := do
    match ← j.variant? with
    | ("Sequential", body) => return .sequential (← decode body)
    | ("Branch", body) =>
      match ← body.record? [⟨"on_true", .null⟩, ⟨"on_false", .null⟩] with
      | [some onTrue, some onFalse] => return .branch (← decode onTrue) (← decode onFalse)
      | _ => none
    | _ => none

instance : Codec Instruction where
  encode i := ofMembers
    [("id", encode i.id), ("operation", encode i.operation),
      ("successors", encode i.successors), ("predecessors", encode i.predecessors)]
  decode j := do
    match ← j.fields? ["id", "operation", "successors", "predecessors"] with
    | [id, operation, successors, predecessors] =>
      return ⟨← decode id, ← decode operation, ← decode successors, ← decode predecessors⟩
    | _ => none

instance : Codec Program where
  encode p := ofMembers [("instructions", encode p.instructions.toList)]
  decode j := do
    match ← j.fields? ["instructions"] with
    | [instructions] => return ⟨(← decode (α := List Instruction) instructions).toArray⟩
    | _ => none

end Dataflow

import Dataflow.Json.Codec
import Dataflow.Solver.Options

/-!
# JSON forms of solver settings

Settings that are left out have their defaults.
-/

namespace Dataflow

open Codec (encode decode)
open Json (ofMembers)

namespace Solver

instance : Codec Strategy where
  encode
    | .chaotic => .ofString "Chaotic"
    | .worklist => .ofString "Worklist"
  decode j :=
    match j.variant? with
    | some ("Chaotic", .null) => some .chaotic
    | some ("Worklist", .null) => some .worklist
    | _ => none

instance : Codec Order where
  encode o := .ofString o.text
  decode j :=
    match j.variant? with
    | some ("Fifo", .null) => some .fifo
    | some ("Lifo", .null) => some .lifo
    | _ => none

instance : Codec Options where
  encode o := ofMembers [("max_evaluations", encode o.maxEvaluations), ("order", encode o.order)]
  decode j := do
    match ← j.record? [⟨"max_evaluations", .default⟩, ⟨"order", .default⟩] with
    | [maxEvaluations, order] =>
      return ⟨← Codec.decodeOr ({} : Options).maxEvaluations maxEvaluations,
        ← Codec.decodeOr ({} : Options).order order⟩
    | _ => none

end Solver

end Dataflow

import Dataflow.Json.Codec
import Dataflow.Machine.Run

/-!
# JSON forms of machine states

A state is a record with its variables and its memory as maps.  A variable is the pair of its value
and the time of its last write.
-/

namespace Dataflow

open Codec (encode decode)
open Json (ofMembers ofVariant)

namespace Machine

instance : Codec Value where
  encode
    | .constant c => ofVariant "Constant" (encode c)
    | .reference location => ofVariant "Reference" (encode location)
  decode j :=
    match j.variant? with
    | some ("Constant", body) => (decode body).map .constant
    | some ("Reference", body) => (decode body).map .reference
    | _ => none

instance : Codec State where
  encode s := ofMembers
    [("variables", Json.ofMap encode s.bindings), ("clock", encode s.clock),
      ("memory", Json.ofMap encode s.memory), ("allocations", encode s.allocations),
      ("input", encode s.input)]
  decode j := do
    match ← j.fields? ["variables", "clock", "memory", "allocations", "input"] with
    | [bindings, clock, memory, allocations, input] =>
      return ⟨← bindings.map? decode, ← decode clock, ← memory.map? decode,
        ← decode allocations, ← decode input⟩
    | _ => none

instance : Codec Options where
  encode o := ofMembers [("max_steps", encode o.maxSteps)]
  decode j := do
    match ← j.record? [⟨"max_steps", .default⟩] with
    | [maxSteps] => return ⟨← Codec.decodeOr ({} : Options).maxSteps maxSteps⟩
    | _ => none

end Machine

end Dataflow

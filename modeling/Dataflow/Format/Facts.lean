import Dataflow.Constants.Propagation
import Dataflow.Definitions.Set
import Dataflow.Dominators.Set
import Dataflow.Json.Codec

/-!
# JSON forms of facts and environments

Sets are written in order.  Literals are a map of constants; read as an environment, each of them is
a known constant.
-/

namespace Dataflow

open Codec (encode decode)
open Json (ofMembers ofVariant)

instance : Codec Flat where
  encode
    | .undef => .ofString "Undef"
    | .constant c => ofVariant "Constant" (encode c)
    | .nac => .ofString "Nac"
  decode j :=
    match j.variant? with
    | some ("Undef", .null) => some .undef
    | some ("Constant", body) => (decode body).map .constant
    | some ("Nac", .null) => some .nac
    | _ => none

/-- A definition is a pair. -/
instance : Codec Definition where
  encode d := encode (d.name, d.site)
  decode j := (decode (α := String × Nat) j).map fun d => ⟨d.1, d.2⟩

instance : Codec DefinitionSet where
  encode s := ofMembers [("definitions", encode s.toList)]
  decode j := do
    match ← j.fields? ["definitions"] with
    | [definitions] => return .ofList (← decode (α := List Definition) definitions)
    | _ => none

instance : Codec LocationSet where
  encode s := ofMembers [("locations", encode s.toList)]
  decode j := do
    match ← j.fields? ["locations"] with
    | [locations] => return .ofList (← decode (α := List String) locations)
    | _ => none

instance : Codec DominatorSet where
  encode
    | .universal => .ofString "Universal"
    | .only ids => ofVariant "Set" (encode ids.toList)
  decode j :=
    match j.variant? with
    | some ("Universal", .null) => some .universal
    | some ("Set", body) => (decode (α := List Nat) body).map fun ids => .only (.ofList ids)
    | _ => none

instance {V : Type} [Codec V] : Codec (Environment V) where
  encode env := ofMembers [("values", Json.ofMap encode env)]
  decode j := do
    match ← j.fields? ["values"] with
    | [values] => values.map? decode
    | _ => none

/-- Read literals: an object of constants. -/
def Constants.readLiterals (s : String) : Except Error (Environment Flat) :=
  match (Json.parse? s).bind (Json.map? decode) with
  | some literals => .ok (ofLiterals literals)
  | none => .error .json

end Dataflow

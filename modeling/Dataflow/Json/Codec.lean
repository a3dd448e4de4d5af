import Dataflow.Constant
import Dataflow.Error
import Dataflow.Json.Text
import Std.Data.ExtTreeMap
import Std.Data.ExtTreeSet

/-!
# JSON forms

A `Codec` gives the JSON form of the values of a type and reads it back.  The rules that all forms
share are here.

* A record is an object with its fields by name, or an array with its fields in order.  Members
  that are no fields of the record are ignored.
* A variant is an object with one member, the variant's name and its body; a bare name stands for
  a variant with the body `null`.
* A map is an object in which the last of several equal keys counts; a set is an array in which
  equal items are one.
* Counters and ids lie in the unsigned 64-bit range.
-/

namespace Dataflow

/-- A JSON form for the values of a type. -/
class Codec (α : Type) where
  /-- The JSON form of a value. -/
  encode : α → Json
  /-- The value with the given JSON form. -/
  decode : Json → Option α

namespace Codec

variable {α : Type} [Codec α]

/-- The value of a field that may be left out and then has the value `d`. -/
def decodeOr (d : α) : Option Json → Option α
  | some j => decode j
  | none => some d

/-- The text of a value's JSON form. -/
def write (a : α) : String := (encode a).render

/-- The value with the given text. -/
def read (s : String) : Except Error α :=
  match (Json.parse? s).bind decode with
  | some a => .ok a
  | none => .error .json

end Codec

namespace Json

/-! ### Records and variants -/

/-- What a record makes of a field that is not given. -/
inductive Absent where
  /-- The record is refused. -/
  | refused
  /-- In an object the field counts as `null`; an array has to give it. -/
  | null
  /-- The field has a default. -/
  | default

/-- A field of a record. -/
structure Field where
  name : String
  absent : Absent := .refused

/-- The fields of a record given by position. -/
def positional : List Field → List Json → Option (List (Option Json))
  | [], [] => some []
  | [], _ :: _ => none
  | _ :: fs, j :: js => (positional fs js).map (some j :: ·)
  | f :: fs, [] =>
    match f.absent with
    | .default => (positional fs []).map (none :: ·)
    | _ => none

/-- The field `f` of a record given by name; a field given twice is refused. -/
def named (members : List (Text × Json)) (f : Field) : Option (Option Json) :=
  match members.filter fun m => m.1 == some f.name with
  | [] =>
    match f.absent with
    | .refused => none
    | .null => some (some .null)
    | .default => some none
  | [(_, j)] => some (some j)
  | _ => none

/-- The fields of a record, in the order of `fields`; `none` stands for a default. -/
def record? (fields : List Field) : Json → Option (List (Option Json))
  | array items => positional fields items
  | object members =>
    if members.all (·.1.isSome) then fields.mapM (named members) else none
  | _ => none

/-- The fields of a record that must give all of them. -/
def fields? (names : List String) (j : Json) : Option (List Json) :=
  (j.record? (names.map ({ name := · }))).bind (List.mapM id)

/-- The name and the body of a variant. -/
def variant? : Json → Option (String × Json)
  | str (some name) => some (name, null)
  | object [(some name, body)] => some (name, body)
  | _ => none

/-- The variant with the given name and body. -/
def ofVariant (name : String) (body : Json) : Json := object [(some name, body)]

/-! ### Scalars, lists, sets and maps -/

/-- The text of a string. -/
def string? : Json → Option String
  | str text => text
  | _ => none

/-- An unsigned 64-bit number. -/
def nat? : Json → Option Nat
  | int n => if 0 ≤ n ∧ n < UInt64.size then some n.toNat else none
  | _ => none

/-- The items of an array, each read by `item`. -/
def list? {α : Type} (item : Json → Option α) : Json → Option (List α)
  | array items => items.mapM item
  | _ => none

/-- A key and the value of its member, read by `value`. -/
def member? {α : Type} (value : Json → Option α) : Text × Json → Option (String × α)
  | (some key, j) => (value j).map (key, ·)
  | (none, _) => none

/-- The keys and values of an object, each value read by `value`. -/
def map? {α : Type} (value : Json → Option α) : Json → Option (Std.ExtTreeMap String α)
  | object members => (members.mapM (member? value)).map fun ms => .ofList ms
  | _ => none

/-- The object with the keys and values of a map. -/
def ofMap {α : Type} (value : α → Json) (m : Std.ExtTreeMap String α) : Json :=
  ofMembers (m.toList.map fun kv => (kv.1, value kv.2))

/-- The array with the given items. -/
def ofList {α : Type} (item : α → Json) (items : List α) : Json := array (items.map item)

end Json

/-! ### Basic types -/

instance : Codec String where
  encode := Json.ofString
  decode := Json.string?

instance : Codec Nat where
  encode n := .int n
  decode := Json.nat?

instance {α : Type} [Codec α] : Codec (List α) where
  encode := Json.ofList Codec.encode
  decode := Json.list? Codec.decode

instance {α : Type} [Codec α] : Codec (Option α) where
  encode
    | some a => Codec.encode a
    | none => .null
  decode
    | .null => some none
    | j => (Codec.decode j).map some

instance {α β : Type} [Codec α] [Codec β] : Codec (α × β) where
  encode p := .array [Codec.encode p.1, Codec.encode p.2]
  decode
    | .array [a, b] =>
      match Codec.decode a, Codec.decode b with
      | some a, some b => some (a, b)
      | _, _ => none
    | _ => none

/-- A constant is a bare truth value or integer. -/
instance : Codec Constant where
  encode
    | .bool b => .bool b
    | .int n => .int n.toInt
  decode
    | .bool b => some (.bool b)
    | .int n => (word? n).map .int
    | _ => none

end Dataflow

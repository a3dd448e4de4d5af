/-!
# JSON trees

`Json` is a JSON text with its layout forgotten.  Members of an object keep their order and their
repetitions; what to make of repeated keys is for the reader of the object to decide.
-/

namespace Dataflow

/-- What a string literal stands for.  A literal whose escapes name half a surrogate pair is
grammatical and stands for no text: that is `none`. -/
abbrev Json.Text := Option String

/-- A JSON text with its layout forgotten. -/
inductive Json where
  | null
  | bool (b : Bool)
  /-- A number written as an integer. -/
  | int (n : Int)
  /-- A number with a fraction or an exponent, or `-0`.  No value of this library is written with
  one, so its size is not kept. -/
  | float
  | str (text : Json.Text)
  | array (items : List Json)
  | object (members : List (Json.Text × Json))
  deriving Repr

namespace Json

/-- The JSON string with the text `s`. -/
def ofString (s : String) : Json := str (some s)

/-- The JSON object with the given keys and values. -/
def ofMembers (members : List (String × Json)) : Json :=
  object (members.map fun m => (some m.1, m.2))

end Json

end Dataflow

import Dataflow.Json.Token

/-!
# JSON texts

`Json.render` writes a tree without blanks and `Json.parse?` reads one.  The reader is a machine
that takes one token at a time: a `Frame` for each array or object that is still open, and a
`Cursor` that says which tokens may come next.
-/

namespace Dataflow.Json

/-! ### Writing -/

mutual

/-- The tokens of a tree. -/
def tokens : Json → List Token
  | null => [.null]
  | bool b => [.bool b]
  | int n => [.int n]
  | float => [.float]
  | str text => [.str text]
  | array [] => [.leftBracket, .rightBracket]
  | array (j :: js) => .leftBracket :: (tokens j ++ itemTokens js ++ [.rightBracket])
  | object [] => [.leftBrace, .rightBrace]
  | object (m :: ms) => .leftBrace :: (memberTokens m ++ membersTokens ms ++ [.rightBrace])

/-- The tokens of the items after the first, each with its comma. -/
def itemTokens : List Json → List Token
  | [] => []
  | j :: js => .comma :: (tokens j ++ itemTokens js)

/-- The tokens of the members after the first, each with its comma. -/
def membersTokens : List (Text × Json) → List Token
  | [] => []
  | m :: ms => .comma :: (memberTokens m ++ membersTokens ms)

/-- The tokens of a key and its value. -/
def memberTokens : Text × Json → List Token
  | (key, j) => .str key :: .colon :: tokens j

end

/-- The text of a tree, without blanks. -/
def render (j : Json) : String := String.ofList (j.tokens.flatMap Token.chars)

/-! ### Reading -/

/-- An array or object that is still open. -/
inductive Frame where
  /-- An array with the items read so far, the last one first. -/
  | array (items : List Json)
  /-- An object with the members read so far, the last one first, that waits for the value of
  `key`. -/
  | object (members : List (Text × Json)) (key : Text)

/-- Where a reader stands, and the frames that are open there. -/
inductive Cursor where
  /-- A value must come. -/
  | value (frames : List Frame)
  /-- An array has just been opened: a value or the end. -/
  | items (frames : List Frame)
  /-- After an item: a comma or the end. -/
  | afterItem (items : List Json) (frames : List Frame)
  /-- An object has just been opened: a key or the end. -/
  | members (frames : List Frame)
  /-- After a comma in an object: a key. -/
  | key (members : List (Text × Json)) (frames : List Frame)
  /-- After a key: a colon. -/
  | colon (members : List (Text × Json)) (key : Text) (frames : List Frame)
  /-- After a member: a comma or the end. -/
  | afterMember (members : List (Text × Json)) (frames : List Frame)
  /-- The tree is complete. -/
  | done (j : Json)

namespace Cursor

/-- Hand a complete value to the frame that waits for it. -/
def deliver (j : Json) : List Frame → Cursor
  | [] => done j
  | .array js :: frames => afterItem (j :: js) frames
  | .object ms k :: frames => afterMember ((k, j) :: ms) frames

/-- Take a token where a value must come. -/
def stepValue (frames : List Frame) : Token → Option Cursor
  | .null => some (deliver .null frames)
  | .bool b => some (deliver (.bool b) frames)
  | .int n => some (deliver (.int n) frames)
  | .float => some (deliver .float frames)
  | .str text => some (deliver (.str text) frames)
  | .leftBracket => some (items frames)
  | .leftBrace => some (members frames)
  | _ => none

/-- Take one token. -/
def step : Cursor → Token → Option Cursor
  | value frames, t => stepValue frames t
  | items frames, .rightBracket => some (deliver (.array []) frames)
  | items frames, t => stepValue (.array [] :: frames) t
  | afterItem js frames, .comma => some (value (.array js :: frames))
  | afterItem js frames, .rightBracket => some (deliver (.array js.reverse) frames)
  | members frames, .rightBrace => some (deliver (.object []) frames)
  | members frames, .str text => some (colon [] text frames)
  | key ms frames, .str text => some (colon ms text frames)
  | colon ms k frames, .colon => some (value (.object ms k :: frames))
  | afterMember ms frames, .comma => some (key ms frames)
  | afterMember ms frames, .rightBrace => some (deliver (.object ms.reverse) frames)
  | _, _ => none

/-- Take a list of tokens. -/
def run : Cursor → List Token → Option Cursor
  | c, [] => some c
  | c, t :: ts => (step c t).bind (run · ts)

end Cursor

/-- The tree with the given tokens. -/
def ofTokens? (ts : List Token) : Option Json :=
  match (Cursor.value []).run ts with
  | some (.done j) => some j
  | _ => none

/-- Read a text. -/
def parse? (s : String) : Option Json := (Token.lex s.toList).bind ofTokens?

end Dataflow.Json

import Dialplan.Json.Token
/-!
# Reading JSON

The lexemes of a text are taken one by one; the containers part way through stand in a list, the
innermost first. A text is JSON exactly when its lexemes lead from "a value must follow" to "one
value is read and nothing is open", with never more than 127 containers open.

* `Json.State`, `Json.step`: what has been read, and what one more lexeme does to it;
* `Json.read?`: the value of a text.
-/

namespace Dialplan.Json

/-- A container that waits for the value being read: its earlier contents, latest first. -/
inductive Frame where
  | array (items : List Json)
  | member (name : String) (members : List (String × Json))

/-- What must follow at a place between two lexemes, with the containers that are open there. -/
inductive State where
  | value (frames : List Frame)
  | firstItem (frames : List Frame)
  | afterItem (items : List Json) (frames : List Frame)
  | firstName (frames : List Frame)
  | nextName (members : List (String × Json)) (frames : List Frame)
  | colon (name : String) (members : List (String × Json)) (frames : List Frame)
  | afterMember (members : List (String × Json)) (frames : List Frame)
  | done (value : Json)

/-- A finished value goes to the innermost container that waits for one. -/
def deliver (v : Json) : List Frame → State
  | [] => .done v
  | .array items :: frames => .afterItem (v :: items) frames
  | .member name members :: frames => .afterMember ((name, v) :: members) frames

/-- How many containers may be open at once. -/
def maxDepth : Nat := 127

/-- What the first lexeme of a value leads to. -/
def startValue (frames : List Frame) : Token → Option State
  | .null => some (deliver .null frames)
  | .bool b => some (deliver (.bool b) frames)
  | .int n => some (deliver (.int n) frames)
  | .real d => some (deliver (.real d) frames)
  | .str s => some (deliver (.str s) frames)
  | .openArray => if frames.length < maxDepth then some (.firstItem frames) else none
  | .openObject => if frames.length < maxDepth then some (.firstName frames) else none
  | _ => none

/-- What one lexeme leads to. -/
def step : State → Token → Option State
  | .value frames, t => startValue frames t
  | .firstItem frames, .closeArray => some (deliver (.arr []) frames)
  | .firstItem frames, t => startValue (.array [] :: frames) t
  | .afterItem items frames, .comma => some (.value (.array items :: frames))
  | .afterItem items frames, .closeArray => some (deliver (.arr items.reverse) frames)
  | .firstName frames, .closeObject => some (deliver (.obj []) frames)
  | .firstName frames, .str name => some (.colon name [] frames)
  | .nextName members frames, .str name => some (.colon name members frames)
  | .colon name members frames, .colon => some (.value (.member name members :: frames))
  | .afterMember members frames, .comma => some (.nextName members frames)
  | .afterMember members frames, .closeObject => some (deliver (.obj members.reverse) frames)
  | _, _ => none

/-- The value of a sequence of lexemes. -/
def ofTokens? (tokens : List Token) : Option Json :=
  match tokens.foldlM step (.value []) with
  | some (.done v) => some v
  | _ => none

/-- The value that a text stands for, if it is JSON. -/
def read? (text : String) : Option Json := (Token.scan text.toList).bind ofTokens?

end Dialplan.Json

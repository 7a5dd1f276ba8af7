import Barline.Json.Token

/-!
# Reading JSON

`Json.parse?` reads one value and nothing after it.  Containers may nest without
limit: the containers that are open are kept in a list, and each token makes
one step.  `Json.tokens` lists the tokens of a value; reading them gives the
value back, which is the law that ties the two together.
-/

namespace Barline.Json

/-- A container that is open, with what it holds so far, newest first.  An open
object waits for the value of its newest name. -/
inductive Frame where
  | array (items : List Json)
  | object (members : List (Option String × Json)) (name : Option String)
  deriving Repr

/-- What may come next. -/
inductive State where
  /-- A value is due. -/
  | value (frames : List Frame)
  /-- An array has been opened: a value or its end. -/
  | arrayStart (frames : List Frame)
  /-- An object has been opened: a name or its end. -/
  | objectStart (frames : List Frame)
  /-- A name is due in an object that has members already. -/
  | name (members : List (Option String × Json)) (frames : List Frame)
  /-- The colon after a name is due. -/
  | colon (members : List (Option String × Json)) (name : Option String) (frames : List Frame)
  /-- A value has ended. -/
  | after (value : Json) (frames : List Frame)
  deriving Repr

/-- Takes a token where a value is due. -/
def startValue? (frames : List Frame) : Token → Option State
  | .null => some (.after .null frames)
  | .bool b => some (.after (.bool b) frames)
  | .number n => some (.after (.number n) frames)
  | .string s => some (.after (.string s) frames)
  | .openArray => some (.arrayStart frames)
  | .openObject => some (.objectStart frames)
  | _ => none

/-- Takes a token after a value that has ended. -/
def endValue? (value : Json) : List Frame → Token → Option State
  | .array items :: frames, .comma => some (.value (.array (value :: items) :: frames))
  | .array items :: frames, .closeArray => some (.after (.array (value :: items).reverse) frames)
  | .object members name :: frames, .comma => some (.name ((name, value) :: members) frames)
  | .object members name :: frames, .closeObject =>
    some (.after (.object ((name, value) :: members).reverse) frames)
  | _, _ => none

/-- Takes one token; `none` when it may not come here. -/
def State.step? : State → Token → Option State
  | .value frames, t => startValue? frames t
  | .arrayStart frames, .closeArray => some (.after (.array []) frames)
  | .arrayStart frames, t => startValue? (.array [] :: frames) t
  | .objectStart frames, .closeObject => some (.after (.object []) frames)
  | .objectStart frames, .string key => some (.colon [] key frames)
  | .name members frames, .string key => some (.colon members key frames)
  | .colon members key frames, .colon => some (.value (.object members key :: frames))
  | .after v frames, t => endValue? v frames t
  | _, _ => none

/-- Takes a list of tokens. -/
def State.run? : State → List Token → Option State
  | s, [] => some s
  | s, t :: ts => (s.step? t).bind fun s => s.run? ts

/-- The value that has been read when nothing is open any more. -/
def State.result? : State → Option Json
  | .after v [] => some v
  | _ => none

/-- The value that a list of tokens makes up. -/
def ofTokens? (ts : List Token) : Option Json :=
  (State.run? (.value []) ts).bind State.result?

/-- Reads a document: one value with nothing but blanks around it. -/
def parse? (s : List Char) : Option Json :=
  (tokens? s).bind ofTokens?

mutual

/-- The tokens of a value. -/
def tokens : Json → List Token
  | .null => [.null]
  | .bool b => [.bool b]
  | .number n => [.number n]
  | .string s => [.string s]
  | .array items => .openArray :: itemTokens items ++ [.closeArray]
  | .object members => .openObject :: memberTokens members ++ [.closeObject]

/-- The tokens of the values of an array, with commas between them. -/
def itemTokens : List Json → List Token
  | [] => []
  | [v] => tokens v
  | v :: rest => tokens v ++ .comma :: itemTokens rest

/-- The tokens of the members of an object, with commas between them. -/
def memberTokens : List (Option String × Json) → List Token
  | [] => []
  | [(name, v)] => .string name :: .colon :: tokens v
  | (name, v) :: rest => .string name :: .colon :: tokens v ++ .comma :: memberTokens rest

end

end Barline.Json

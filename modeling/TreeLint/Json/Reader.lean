import TreeLint.Json.Token

/-!
# Reading JSON

The reader takes one token at a time and keeps the containers still open on a stack of its own, so
a text may nest as deeply as it likes. What it has read so far, and what may come next, is a
`Reading`.

- `Reading.step` takes one token.
- `Json.parse?` reads a text that holds exactly one value.
-/

namespace TreeLint.Json

/-- A container whose end has not been read. Its parts stand newest first. -/
inductive Frame where
  | array (before : List Json)
  /-- An object, and the key of the member whose value is being read. -/
  | object (before : List (Option String × Json)) (key : Option String)

/-- What has been read, by what must come next. The stack holds the innermost container first. -/
inductive Reading where
  /-- A value. -/
  | value (stack : List Frame)
  /-- A value or the end of an array that has just begun. -/
  | firstItem (stack : List Frame)
  /-- A key or the end of an object that has just begun. -/
  | firstKey (stack : List Frame)
  /-- A key. -/
  | key (before : List (Option String × Json)) (stack : List Frame)
  /-- The colon behind a key. -/
  | colon (before : List (Option String × Json)) (key : Option String) (stack : List Frame)
  /-- Whatever may follow the value just read. -/
  | behind (value : Json) (stack : List Frame)

namespace Reading

/-- What follows a token where a value may begin, inside the containers of `stack`. -/
def begin? (stack : List Frame) : JsonToken → Option Reading
  | .openArray => some (firstItem stack)
  | .openObject => some (firstKey stack)
  | .scalar v => some (behind v stack)
  | _ => none

/-- What follows a token; `none` when the token may not come here. -/
def step : Reading → JsonToken → Option Reading
  | value stack, t => begin? stack t
  | firstItem stack, .closeArray => some (behind (.array []) stack)
  | firstItem stack, t => begin? (.array [] :: stack) t
  | firstKey stack, .closeObject => some (behind (.object []) stack)
  | firstKey stack, .scalar (.string k) => some (colon [] k stack)
  | key before stack, .scalar (.string k) => some (colon before k stack)
  | colon before k stack, .colon => some (value (.object before k :: stack))
  | behind v (.array before :: stack), .comma => some (value (.array (v :: before) :: stack))
  | behind v (.array before :: stack), .closeArray =>
    some (behind (.array (v :: before).reverse) stack)
  | behind v (.object before k :: stack), .comma => some (key ((k, v) :: before) stack)
  | behind v (.object before k :: stack), .closeObject =>
    some (behind (.object ((k, v) :: before).reverse) stack)
  | _, _ => none

end Reading

/-- The value that `tokens` spell. -/
def ofTokens? (tokens : List JsonToken) : Option Json :=
  match tokens.foldlM Reading.step (.value []) with
  | some (.behind v []) => some v
  | _ => none

/-- The value that `text` holds; `none` when it is not one JSON value between blanks. -/
def parse? (text : String) : Option Json := do
  let tokens ← JsonToken.ofText? text.toList
  ofTokens? tokens

end TreeLint.Json

import CodeQuality.Json.Token

/-!
Reading JSON.

The tokens are read one at a time, with the arrays and objects that are still open on a stack.
So nesting costs no recursion, and a text of any depth can be read.
-/

namespace CodeQuality.Json

/-- An array or object that is still open, with what it holds so far, the last first. -/
inductive Frame where
  | array (before : List Json)
  /-- The value for `key` is due or under way. -/
  | object (before : List (JsonText × Json)) (key : JsonText)

/-- What the next token may be. -/
inductive ParseState where
  | value (stack : List Frame)
  /-- The first item of an array, or its end. -/
  | firstItem (stack : List Frame)
  /-- The key of a member; the end of the object if it has no member yet and `mayClose`. -/
  | key (mayClose : Bool) (before : List (JsonText × Json)) (stack : List Frame)
  /-- The colon after a key. -/
  | colon (before : List (JsonText × Json)) (key : JsonText) (stack : List Frame)
  /-- A comma or an end, after the value; nothing if no array or object is open. -/
  | after (value : Json) (stack : List Frame)

namespace ParseState

def onValue (stack : List Frame) : JsonToken → Option ParseState
  | .scalar v => some (after v stack)
  | .string t => some (after (.string t) stack)
  | .openBracket => some (firstItem stack)
  | .openBrace => some (key true [] stack)
  | _ => none

def step : ParseState → JsonToken → Option ParseState
  | value stack, token => onValue stack token
  | firstItem stack, .closeBracket => some (after (.array []) stack)
  | firstItem stack, token => onValue (.array [] :: stack) token
  | key _ before stack, .string k => some (colon before k stack)
  | key true before stack, .closeBrace => some (after (.object before.reverse) stack)
  | key _ _ _, _ => none
  | colon before k stack, .colon => some (value (.object before k :: stack))
  | colon _ _ _, _ => none
  | after v (.array before :: stack), .comma => some (value (.array (v :: before) :: stack))
  | after v (.array before :: stack), .closeBracket =>
    some (after (.array (v :: before).reverse) stack)
  | after v (.object before k :: stack), .comma => some (key false ((k, v) :: before) stack)
  | after v (.object before k :: stack), .closeBrace =>
    some (after (.object ((k, v) :: before).reverse) stack)
  | after _ _, _ => none

def result? : ParseState → Option Json
  | after v [] => some v
  | _ => none

end ParseState

def parse? (s : String) : Option Json := do
  let tokens ← JsonToken.scan s.toList
  let state ← tokens.foldlM ParseState.step (ParseState.value [])
  state.result?

end CodeQuality.Json

import Changelog.Json.Token

/-!
# Reading JSON

Tokens are read one by one with a stack of the containers that are still open.  A state says what
may come next, so each token either leads to another state or ends the reading.  The reader needs
no bound on depth and no look-ahead, and a value is read in the same way wherever it stands: its
tokens turn a state that waits for a value into one that has it.
-/

namespace Changelog.Json

/-- A container that is still open, with what it holds so far. -/
inductive Frame
  /-- An array with its items so far. -/
  | array (items : List Json)
  /-- An object with its members so far and the key of the member being read. -/
  | object (members : List (Str × Json)) (key : Str)
  deriving Repr

/-- What may come next, inside the open containers. -/
inductive State
  /-- A value. -/
  | value (stack : List Frame)
  /-- The first item of an array, or its end. -/
  | arrayStart (stack : List Frame)
  /-- The first key of an object, or its end. -/
  | objectStart (stack : List Frame)
  /-- Another key of an object. -/
  | key (members : List (Str × Json)) (stack : List Frame)
  /-- The colon after a key. -/
  | colon (members : List (Str × Json)) (key : Str) (stack : List Frame)
  /-- Whatever follows a value. -/
  | after (v : Json) (stack : List Frame)
  deriving Repr

namespace State

/-- Read the first token of a value. -/
def beginValue (stack : List Frame) : Token → Option State
  | .literal v => some (after v stack)
  | .string s => some (after (.string s) stack)
  | .beginArray => some (arrayStart stack)
  | .beginObject => some (objectStart stack)
  | _ => none

/-- Read one token. -/
def next? : State → Token → Option State
  | value stack, token => beginValue stack token
  | arrayStart stack, .endArray => some (after (.array []) stack)
  | arrayStart stack, token => beginValue (.array [] :: stack) token
  | objectStart stack, .endObject => some (after (.object []) stack)
  | objectStart stack, .string k => some (colon [] k stack)
  | key members stack, .string k => some (colon members k stack)
  | colon members k stack, .colon => some (value (.object members k :: stack))
  | after v (.array items :: stack), .comma => some (value (.array (items ++ [v]) :: stack))
  | after v (.array items :: stack), .endArray => some (after (.array (items ++ [v])) stack)
  | after v (.object members k :: stack), .comma => some (key (members ++ [(k, v)]) stack)
  | after v (.object members k :: stack), .endObject =>
    some (after (.object (members ++ [(k, v)])) stack)
  | _, _ => none

/-- Read tokens. -/
def run? (state : State) (tokens : List Token) : Option State :=
  tokens.foldlM next? state

/-- The value that was read, when every container is closed. -/
def result? : State → Option Json
  | after v [] => some v
  | _ => none

@[simp] theorem run?_nil (state : State) : state.run? [] = some state := rfl

@[simp] theorem run?_cons (state : State) (token : Token) (tokens : List Token) :
    state.run? (token :: tokens) = (state.next? token).bind (·.run? tokens) := by
  simp only [run?, List.foldlM_cons]
  rfl

theorem run?_append (state : State) (xs ys : List Token) :
    state.run? (xs ++ ys) = (state.run? xs).bind (·.run? ys) := by
  simp only [run?, List.foldlM_append]
  rfl

end State

/-- The value that tokens stand for. -/
def ofTokens? (tokens : List Token) : Option Json :=
  (State.run? (.value []) tokens).bind State.result?

/-- The value that a text stands for. -/
def parse? (text : String) : Option Json :=
  (Token.scan? text.toList).bind ofTokens?

end Changelog.Json

import DocPath.Json.Token

/-!
# Reading JSON texts

The reader steps through the tokens with a stack of the containers that are still open. Containers
nest 127 deep at most. A key that comes twice keeps its first place and its last value.
-/

namespace DocPath.Json

/-- The deepest nesting of containers. -/
def maxDepth : Nat := 127

/-- A container that is still open and waits for a value. -/
inductive Frame where
  /-- An array, with its elements so far in reverse. -/
  | array (done : List Value)
  /-- An object, with its fields so far and the key of the value to come. -/
  | object (done : Table Value) (key : String)

/-- What has been read, and so what may come next. -/
inductive State where
  /-- A value has to come. -/
  | value (stack : List Frame)
  /-- An array was opened: its first element or its end has to come. -/
  | opened (stack : List Frame)
  /-- A key has to come, or the end of the object when it was just opened. -/
  | key (opened : Bool) (fields : Table Value) (stack : List Frame)
  /-- A key has come. -/
  | colon (fields : Table Value) (key : String) (stack : List Frame)
  /-- A value is complete. -/
  | complete (v : Value) (stack : List Frame)

variable [DoubleReader]

namespace State

/-- Opens a container or completes a scalar. -/
def begin (stack : List Frame) : Token → Option State
  | .text s => some (complete (.string s) stack)
  | .scalar v => some (complete v stack)
  | .mark c =>
    -- The stack holds one frame for each container that is open.
    if maxDepth ≤ stack.length then none
    else if c = '[' then some (opened stack)
    else if c = '{' then some (key true [] stack)
    else none

/-- Steps over a token. -/
def step : State → Token → Option State
  | value stack, t => begin stack t
  | opened stack, .mark ']' => some (complete (.array []) stack)
  | opened stack, t => begin (.array [] :: stack) t
  | key _ fields stack, .text s => some (colon fields s stack)
  | key true _ stack, .mark '}' => some (complete (.object []) stack)
  | colon fields s stack, .mark ':' => some (value (.object fields s :: stack))
  | complete v (.array done :: stack), .mark ',' => some (value (.array (v :: done) :: stack))
  | complete v (.array done :: stack), .mark ']' =>
    some (complete (.array (v :: done).reverse) stack)
  | complete v (.object fields s :: stack), .mark ',' => some (key false (fields.put s v) stack)
  | complete v (.object fields s :: stack), .mark '}' =>
    some (complete (.object (fields.put s v)) stack)
  | _, _ => none

/-- The value of a text that ends here. -/
def value? : State → Option Value
  | complete v [] => some v
  | _ => none

/-- Reads a text to its end. -/
def run (s : State) (cs : List Char) : Option Value :=
  match cs with
  | [] => s.value?
  | c :: tail =>
    if isSpace c then run s tail
    else
      match _h : readToken c tail with
      | none => none
      | some (t, rest) =>
        match s.step t with
        | none => none
        | some s' => run s' rest
termination_by cs.length
decreasing_by
  · exact Nat.lt_succ_self _
  · exact Nat.lt_succ_of_le (length_le_of_readToken _h)

end State

/-- The value that a JSON text spells. -/
def parse? (text : String) : Option Value := (State.value []).run text.toList

end DocPath.Json

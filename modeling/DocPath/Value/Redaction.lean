import DocPath.Path.Pattern
import DocPath.Value.Basic

/-!
# Redaction

Redaction removes every place whose path, from the root on, a pattern accepts. The elements of an
array count by the places that they have in it before anything is removed.
-/

namespace DocPath

/-- The segment of the element at a place of an array: its index, and behind the last index there
is, the text of its place. -/
def Segment.element (i : Nat) : Segment :=
  if i < UInt64.size then .index (UInt64.ofNat i) else .key (decimal i)

namespace Value

mutual

/-- What is left of a value at a path when every place that a pattern accepts is removed. -/
def redact (patterns : List Path) (path : Path) (v : Value) : Option Value :=
  if patterns.any (·.accepts path) then none
  else
    match v with
    | array elements => some (array (redactElements patterns path 0 elements))
    | object fields => some (object (redactFields patterns path fields))
    | scalar => some scalar

/-- The elements that are left; `i` is the place of the first one in its array. -/
def redactElements (patterns : List Path) (path : Path) (i : Nat) : List Value → List Value
  | [] => []
  | v :: rest =>
    let later := redactElements patterns path (i + 1) rest
    match redact patterns (path ++ [.element i]) v with
    | some kept => kept :: later
    | none => later

/-- The fields that are left. -/
def redactFields (patterns : List Path) (path : Path) :
    List (String × Value) → List (String × Value)
  | [] => []
  | (key, v) :: rest =>
    let later := redactFields patterns path rest
    match redact patterns (path ++ [.key key]) v with
    | some kept => (key, kept) :: later
    | none => later

end

end Value

end DocPath

import DocPath.Path.Pattern
import DocPath.Value.Basic

/-!
# Stripping

Stripping removes every place that a pattern accepts. On the way down each key shortens the
patterns whose first segment accepts it; a place goes when a pattern has been used up there.
Arrays close up, and containers stay even when nothing is left in them. Where no patterns are left
the walk goes no further down.
-/

namespace DocPath

/-- What is left of the patterns below a key: the rests of those that start with it. -/
def residual (key : String) (patterns : List Path) : List Path :=
  patterns.filterMap fun
    | [] => none
    | s :: rest => if s.acceptsKey key then some rest else none

namespace Value

mutual

/-- The value without the places that the patterns accept; nothing when that is the root. -/
def strip (patterns : List Path) (v : Value) : Option Value :=
  if patterns.any List.isEmpty then none
  else if patterns.isEmpty then some v
  else
    match v with
    | array elements => some (array (stripElements patterns 0 elements))
    | object fields => some (object (stripFields patterns fields))
    | scalar => some scalar

/-- The elements that stay; `i` is the index of the first one in its array. -/
def stripElements (patterns : List Path) (i : Nat) : List Value → List Value
  | [] => []
  | v :: rest =>
    match strip (residual (decimal i) patterns) v with
    | some kept => kept :: stripElements patterns (i + 1) rest
    | none => stripElements patterns (i + 1) rest

/-- The fields that stay. -/
def stripFields (patterns : List Path) : List (String × Value) → List (String × Value)
  | [] => []
  | (key, v) :: rest =>
    match strip (residual key patterns) v with
    | some kept => (key, kept) :: stripFields patterns rest
    | none => stripFields patterns rest

end

end Value

end DocPath

import DocPath.Path.Pattern
import DocPath.Value.Basic

/-!
# Merging

An overlay is laid on a base. Objects merge field by field. Arrays are overlaid element by
element, or joined where a pattern accepts their path. In all other cases the overlay wins.
-/

namespace DocPath.Value

mutual

/-- The overlay laid on the base, both at a path that the joining patterns are compared with. -/
def overlay (joining : List Path) (path : Path) (base top : Value) : Value :=
  match base, top with
  | object fields, object above => object (overlayFields joining path fields above)
  | array elements, array above =>
    if joining.any (·.accepts path) then array (elements ++ above)
    else array (above ++ elements.drop above.length)
  | _, scalar => scalar

/-- Lays fields one after the other on a table. -/
def overlayFields (joining : List Path) (path : Path) (fields : Table Value) :
    List (String × Value) → Table Value
  | [] => fields
  | (key, top) :: rest =>
    match fields.get? key with
    | some base =>
      let merged := overlay joining (path ++ [.key key]) base top
      overlayFields joining path (fields.put key merged) rest
    | none => overlayFields joining path (fields ++ [(key, top)]) rest

end

/-- Merges two values that may be missing, both at a path; a missing one yields the other. -/
def mergeAt (joining : List Path) (path : Path) : Option Value → Option Value → Option Value
  | base, none => base
  | none, top => top
  | some base, some top => some (overlay joining path base top)

/-- Merges two values that may be missing. -/
def merge (joining : List Path) (base top : Option Value) : Option Value :=
  mergeAt joining [] base top

end DocPath.Value

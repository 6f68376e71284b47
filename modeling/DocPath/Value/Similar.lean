import DocPath.Value.Basic

/-!
# Values up to the order of fields

Similar values differ in the order of the fields of objects at most, at any depth. Unlike a
comparison of numbers, similarity keeps all doubles apart that differ in a bit.
-/

namespace DocPath.Value

mutual

/-- The values differ in the order of fields at most. -/
inductive Similar : Value → Value → Prop where
  | null : Similar null null
  | bool (b : Bool) : Similar (bool b) (bool b)
  | number (n : Number) : Similar (number n) (number n)
  | string (s : String) : Similar (string s) (string s)
  | array {xs ys : List Value} (elements : SimilarElements xs ys) : Similar (array xs) (array ys)
  | object {fs gs : List (String × Value)} (fields : SimilarFields fs gs) :
      Similar (object fs) (object gs)

/-- Elements are similar one by one. -/
inductive SimilarElements : List Value → List Value → Prop where
  | nil : SimilarElements [] []
  | cons {x y : Value} {xs ys : List Value} (first : Similar x y) (rest : SimilarElements xs ys) :
      SimilarElements (x :: xs) (y :: ys)

/-- Each field has its counterpart, wherever that stands. -/
inductive SimilarFields : List (String × Value) → List (String × Value) → Prop where
  | nil : SimilarFields [] []
  | cons {key : String} {v w : Value} {fs before behind : List (String × Value)}
      (first : Similar v w) (rest : SimilarFields fs (before ++ behind)) :
      SimilarFields ((key, v) :: fs) (before ++ (key, w) :: behind)

end

/-- Values that may be missing are both missing or similar. -/
inductive SimilarOption : Option Value → Option Value → Prop where
  | none : SimilarOption none none
  | some {v w : Value} (similar : Similar v w) : SimilarOption (some v) (some w)

end DocPath.Value

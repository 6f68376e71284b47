import DocPath.Value.Basic

/-!
# Shapes of values

How many values a value is made of, how deep its containers nest, and which values a text can give
back: their objects have no key twice, and their numbers are of the narrowest kind and finite.
-/

namespace DocPath

/-- A whole number has a sign where it can have one. -/
def Number.IsNarrow : Number → Prop
  | nat n => 0x8000000000000000 ≤ n.toNat
  | _ => True

/-- A number that reading its text gives back: a whole number has a sign where it can have one, and
a double is finite. -/
def Number.IsCanonical : Number → Prop
  | int _ => True
  | nat n => 0x8000000000000000 ≤ n.toNat
  | double x => x.isFinite = true

namespace Value

mutual

/-- The number of values in a value, itself included. -/
def nodes : Value → Nat
  | array elements => 1 + nodesOfElements elements
  | object fields => 1 + nodesOfFields fields
  | _ => 1

def nodesOfElements : List Value → Nat
  | [] => 0
  | v :: rest => nodes v + nodesOfElements rest

def nodesOfFields : List (String × Value) → Nat
  | [] => 0
  | (_, v) :: rest => nodes v + nodesOfFields rest

end

mutual

/-- How deep the containers of a value nest. -/
def depth : Value → Nat
  | array elements => 1 + depthOfElements elements
  | object fields => 1 + depthOfFields fields
  | _ => 0

def depthOfElements : List Value → Nat
  | [] => 0
  | v :: rest => max (depth v) (depthOfElements rest)

def depthOfFields : List (String × Value) → Nat
  | [] => 0
  | (_, v) :: rest => max (depth v) (depthOfFields rest)

end

mutual

/-- No object in the value has a key twice. -/
def HasDistinctKeys : Value → Prop
  | array elements => HaveDistinctKeys elements
  | object fields => (Table.keys fields).Nodup ∧ FieldsHaveDistinctKeys fields
  | _ => True

def HaveDistinctKeys : List Value → Prop
  | [] => True
  | v :: rest => HasDistinctKeys v ∧ HaveDistinctKeys rest

def FieldsHaveDistinctKeys : List (String × Value) → Prop
  | [] => True
  | (_, v) :: rest => HasDistinctKeys v ∧ FieldsHaveDistinctKeys rest

end

theorem HaveDistinctKeys.of_mem {elements : List Value} (h : HaveDistinctKeys elements)
    {v : Value} (hv : v ∈ elements) : v.HasDistinctKeys := by
  induction elements with
  | nil => cases hv
  | cons w elements ih =>
    rcases List.mem_cons.1 hv with rfl | hmem
    · exact h.1
    · exact ih h.2 hmem

theorem FieldsHaveDistinctKeys.of_mem {fields : List (String × Value)}
    (h : FieldsHaveDistinctKeys fields) {e : String × Value} (he : e ∈ fields) :
    e.2.HasDistinctKeys := by
  induction fields with
  | nil => cases he
  | cons e' fields ih =>
    rcases List.mem_cons.1 he with rfl | hmem
    · exact h.1
    · exact ih h.2 hmem

theorem HasDistinctKeys.of_get? {fields : Table Value} (h : (object fields).HasDistinctKeys)
    {key : String} {v : Value} (hget : fields.get? key = some v) : v.HasDistinctKeys :=
  FieldsHaveDistinctKeys.of_mem h.2 (Table.mem_of_get? hget)

mutual

/-- The numbers in a value, in order. -/
def numbers : Value → List Number
  | number n => [n]
  | array elements => numbersOfElements elements
  | object fields => numbersOfFields fields
  | _ => []

def numbersOfElements : List Value → List Number
  | [] => []
  | v :: rest => numbers v ++ numbersOfElements rest

def numbersOfFields : List (String × Value) → List Number
  | [] => []
  | (_, v) :: rest => numbers v ++ numbersOfFields rest

end

mutual

/-- All numbers in the value are canonical. -/
def HasCanonicalNumbers : Value → Prop
  | number n => n.IsCanonical
  | array elements => HaveCanonicalNumbers elements
  | object fields => FieldsHaveCanonicalNumbers fields
  | _ => True

def HaveCanonicalNumbers : List Value → Prop
  | [] => True
  | v :: rest => HasCanonicalNumbers v ∧ HaveCanonicalNumbers rest

def FieldsHaveCanonicalNumbers : List (String × Value) → Prop
  | [] => True
  | (_, v) :: rest => HasCanonicalNumbers v ∧ FieldsHaveCanonicalNumbers rest

end

end Value

end DocPath

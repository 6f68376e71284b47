import DocPath.Value.Basic

/-!
# Induction over values

Containers hold their children in lists, the fields of an object with a key each. The induction
gives the property of every child of a container, whatever list the child stands in.
-/

namespace DocPath.Value

/-- What scalars have, and containers have whose children have it, all values have. -/
@[elab_as_elim]
theorem childInduction {motive : Value → Prop}
    (scalar : ∀ v, v.isContainer = false → motive v)
    (array : ∀ elements, (∀ v ∈ elements, motive v) → motive (.array elements))
    (object : ∀ fields, (∀ e ∈ fields, motive e.2) → motive (.object fields)) :
    ∀ v, motive v
  | .null => scalar .null rfl
  | .bool b => scalar (.bool b) rfl
  | .number n => scalar (.number n) rfl
  | .string s => scalar (.string s) rfl
  | .array elements => array elements fun v _hv => childInduction scalar array object v
  | .object fields => object fields fun (_key, v) _he => childInduction scalar array object v
termination_by v => sizeOf v
decreasing_by
  · have hsize : sizeOf v < sizeOf elements := List.sizeOf_lt_of_mem _hv
    rw [Value.array.sizeOf_spec]
    omega
  · have hsize : sizeOf (_key, v) < sizeOf fields := List.sizeOf_lt_of_mem _he
    rw [Prod.mk.sizeOf_spec] at hsize
    rw [Value.object.sizeOf_spec]
    omega

end DocPath.Value

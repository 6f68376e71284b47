import DocPath.Proofs.Value.Merge
import DocPath.Proofs.Value.Write

/-!
# Writing as merging

A write at a path of keys makes of nothing a document with a single leaf. Laid on a value, such a
document goes down the same keys as the write itself: an object keeps its other fields, and what is
no object gives way to one.
-/

namespace DocPath.Value

variable {joining : List Path} {path : Path} {preferArrays : Bool}

/-- A write at a key of what is no object makes an object with that key alone. -/
theorem set_key_of_kind_ne {base : Value} (h : base.kind ≠ (object []).kind) (name : String)
    (p : Path) (x : Value) :
    set preferArrays (some base) (.key name :: p) x =
      set preferArrays none (.key name :: p) x := by
  cases base with
  | object fields => exact absurd rfl h
  | array | null | bool | number | string => rfl

/-- A document with one leaf, laid on a value at any place, writes the leaf there. -/
theorem mergeAt_set_none {x : Value} (hx : x.isContainer = false) (v : Option Value)
    (names : List String) :
    mergeAt joining path v (some (set preferArrays none (names.map .key) x)) =
      some (set preferArrays v (names.map .key) x) := by
  induction names generalizing path v with
  | nil =>
      cases v with
      | none => rfl
      | some base => exact congrArg some (overlay_eq_top (.inl hx))
  | cons name names ih =>
      have hleaf : set preferArrays none ((name :: names).map .key) x =
          object [(name, set preferArrays none (names.map .key) x)] := rfl
      cases v with
      | none => rfl
      | some base =>
          by_cases hkind : base.kind = (object []).kind
          · obtain ⟨fields, rfl⟩ := exists_object_of_kind_eq hkind.symm
            rw [hleaf, mergeAt_some, overlay_object, overlayFields_cons (ih _), overlayFields]
            rfl
          · rw [List.map_cons, set_key_of_kind_ne hkind, ← List.map_cons, mergeAt_some]
            exact congrArg some (overlay_eq_top (.inr hkind))

/-- Writing a scalar at a path of keys is laying a document on the value that has the scalar for
its one leaf, the order of fields included, and whatever arrays are joined. -/
theorem some_set_eq_merge (preferArrays : Bool) (joining : List Path) {x : Value}
    (hx : x.isContainer = false) (v : Option Value) (names : List String) :
    some (set preferArrays v (names.map .key) x) =
      merge joining v (some (set preferArrays none (names.map .key) x)) :=
  (mergeAt_set_none hx v names).symm

/-- An array in the way, whose index the second key spells: it gives way to an object, joined or
not. -/
theorem some_set_eq_merge_array_in_the_way :
    let v := some (object [("a", array [null]), ("b", bool true)])
    let p : Path := ["a", "0"].map .key
    (string "c").isContainer = false ∧
      some (set true v p (string "c")) =
        merge [[.key "a"]] v (some (set true none p (string "c"))) ∧
      merge [[.key "a"]] v (some (set true none p (string "c"))) =
        some (object [("a", object [("0", string "c")]), ("b", bool true)]) := by
  intro v p
  exact ⟨rfl, some_set_eq_merge true [[.key "a"]] rfl v ["a", "0"], by rfl⟩

end DocPath.Value

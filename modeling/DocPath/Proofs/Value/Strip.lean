import Mathlib.Data.List.Basic
import DocPath.Value.Strip
import DocPath.Proofs.Path.Pattern
import DocPath.Proofs.Value.Induction

/-!
# What stripping keeps

Whether a place goes hangs on its patterns alone, not on the value that stands there. So stripping
keeps the kind of a value that stays, and what it leaves under a key is what the key's own patterns
leave of the value there.
-/

namespace DocPath

namespace Value

variable {patterns : List Path}

/-- Where no patterns are left everything stays. -/
theorem strip_nil (v : Value) : strip [] v = some v := by
  unfold strip
  rfl

theorem stripElements_nil (i : Nat) (elements : List Value) :
    stripElements [] i elements = elements := by
  induction elements generalizing i with
  | nil => rfl
  | cons v elements ih =>
      have hv : strip (residual (decimal i) []) v = some v := strip_nil v
      simp only [stripElements, hv, ih]

theorem stripFields_nil (fields : List (String × Value)) : stripFields [] fields = fields := by
  induction fields with
  | nil => rfl
  | cons e fields ih =>
      have hv : strip (residual e.1 []) e.2 = some e.2 := strip_nil e.2
      simp only [stripFields, hv, ih]

/-- To stop where no patterns are left changes nothing. -/
theorem strip_eq (patterns : List Path) (v : Value) :
    strip patterns v =
      if patterns.any List.isEmpty then none
      else
        match v with
        | array elements => some (array (stripElements patterns 0 elements))
        | object fields => some (object (stripFields patterns fields))
        | scalar => some scalar := by
  cases patterns with
  | nil =>
      rw [strip_nil]
      cases v with
      | array elements => simp [stripElements_nil]
      | object fields => simp [stripFields_nil]
      | null | bool | number | string => rfl
  | cons p patterns =>
      unfold strip
      rfl

/-- Whether a value goes as a whole hangs on the patterns alone. -/
theorem strip_eq_none_iff {v : Value} :
    strip patterns v = none ↔ patterns.any List.isEmpty = true := by
  rw [strip_eq]
  by_cases h : patterns.any List.isEmpty = true
  · simp [h]
  · cases v with
    | array | object | null | bool | number | string => simp [h]

/-- The empty pattern removes every value. -/
theorem strip_eq_none_of_mem (h : [] ∈ patterns) (v : Value) : strip patterns v = none :=
  strip_eq_none_iff.2 (List.any_eq_true.2 ⟨[], h, rfl⟩)

theorem strip_eq_none_of {v : Value} (h : strip patterns v = none) (w : Value) :
    strip patterns w = none :=
  strip_eq_none_iff.2 (strip_eq_none_iff.1 h)

theorem any_isEmpty_of_strip {v w : Value} (h : strip patterns v = some w) :
    patterns.any List.isEmpty = false := by
  rw [Bool.eq_false_iff]
  intro hany
  rw [strip_eq_none_iff.2 hany] at h
  contradiction

theorem exists_strip (h : patterns.any List.isEmpty = false) (v : Value) :
    ∃ w, strip patterns v = some w := by
  apply Option.ne_none_iff_exists'.1
  rw [Ne, strip_eq_none_iff, h]
  exact Bool.false_ne_true

theorem strip_scalar (h : patterns.any List.isEmpty = false) {v : Value}
    (hv : v.isContainer = false) : strip patterns v = some v := by
  rw [strip_eq]
  cases v with
  | array => contradiction
  | object => contradiction
  | null | bool | number | string => simp [h]

theorem strip_array (h : patterns.any List.isEmpty = false) (elements : List Value) :
    strip patterns (array elements) = some (array (stripElements patterns 0 elements)) := by
  rw [strip_eq]
  simp [h]

theorem strip_object (h : patterns.any List.isEmpty = false) (fields : List (String × Value)) :
    strip patterns (object fields) = some (object (stripFields patterns fields)) := by
  rw [strip_eq]
  simp [h]

theorem stripElements_eq_filterMap (patterns : List Path) (i : Nat) (elements : List Value) :
    stripElements patterns i elements =
      (elements.zipIdx i).filterMap fun e => strip (residual (decimal e.2) patterns) e.1 := by
  induction elements generalizing i with
  | nil => rfl
  | cons v elements ih =>
      rw [stripElements, List.zipIdx_cons, List.filterMap_cons, ih]
      cases strip (residual (decimal i) patterns) v <;> rfl

/-- Patterns made of names leave the same of every element, wherever it stands. -/
theorem stripElements_of_namesOnly (h : ∀ p ∈ patterns, p.NamesOnly) (elements : List Value) :
    stripElements patterns 0 elements =
      elements.filterMap (strip (residual (decimal 0) patterns)) := by
  calc
    stripElements patterns 0 elements
      = (elements.zipIdx 0).filterMap fun e => strip (residual (decimal e.2) patterns) e.1 :=
        stripElements_eq_filterMap patterns 0 elements
    _ = (elements.zipIdx 0).filterMap fun e => strip (residual (decimal 0) patterns) e.1 := by
        apply List.filterMap_congr
        intro e _
        rw [residual_decimal h e.2 0]
    _ = ((elements.zipIdx 0).map Prod.fst).filterMap (strip (residual (decimal 0) patterns)) := by
        rw [List.filterMap_map]
        rfl
    _ = elements.filterMap (strip (residual (decimal 0) patterns)) := by
        rw [List.zipIdx_map_fst]

theorem stripFields_eq_filterMap (patterns : List Path) (fields : List (String × Value)) :
    stripFields patterns fields =
      fields.filterMap fun e => (strip (residual e.1 patterns) e.2).map fun w => (e.1, w) := by
  induction fields with
  | nil => rfl
  | cons e fields ih =>
      rw [stripFields, List.filterMap_cons, ih]
      cases strip (residual e.1 patterns) e.2 <;> rfl

theorem kind_of_strip {v w : Value} (h : strip patterns v = some w) : w.kind = v.kind := by
  have hany : patterns.any List.isEmpty = false := any_isEmpty_of_strip h
  cases v with
  | array elements =>
      rw [strip_array hany] at h
      cases h
      rfl
  | object fields =>
      rw [strip_object hany] at h
      cases h
      rfl
  | null | bool | number | string =>
      rw [strip_scalar hany rfl] at h
      cases h
      rfl

/-! ## Fields -/

theorem get?_stripFields (patterns : List Path) (fields : Table Value) (key : String) :
    Table.get? (stripFields patterns fields) key =
      (fields.get? key).bind (strip (residual key patterns)) := by
  induction fields with
  | nil => rfl
  | cons e fields ih =>
      obtain ⟨k, v⟩ := e
      rw [stripFields, Table.get?_cons]
      cases hkept : strip (residual k patterns) v with
      | none =>
          change Table.get? (stripFields patterns fields) key = _
          rw [ih]
          by_cases hkey : key = k
          · -- What went under the key goes under it everywhere.
            subst hkey
            have hall : ∀ w, strip (residual key patterns) w = none := strip_eq_none_of hkept
            simp [hall]
          · rw [if_neg hkey]
      | some kept =>
          change Table.get? ((k, kept) :: stripFields patterns fields) key = _
          rw [Table.get?_cons, ih]
          by_cases hkey : key = k
          · subst hkey
            rw [if_pos rfl, if_pos rfl, Option.bind_some, hkept]
          · rw [if_neg hkey, if_neg hkey]

theorem stripFields_append (patterns : List Path) (fields above : Table Value) :
    stripFields patterns (fields ++ above) =
      stripFields patterns fields ++ stripFields patterns above := by
  simp only [stripFields_eq_filterMap, List.filterMap_append]

theorem stripFields_put_of_none {key : String} {v : Value}
    (h : strip (residual key patterns) v = none) (fields : Table Value) :
    stripFields patterns (fields.put key v) = stripFields patterns fields := by
  have hall : ∀ w, strip (residual key patterns) w = none := strip_eq_none_of h
  unfold Table.put
  split
  · rw [stripFields_eq_filterMap, stripFields_eq_filterMap, List.filterMap_map]
    apply List.filterMap_congr
    intro e _
    by_cases hkey : e.1 = key <;> simp [hkey, hall]
  · rw [stripFields_append]
    simp [stripFields, h]

theorem stripFields_put_of_some {key : String} {v kept : Value}
    (h : strip (residual key patterns) v = some kept) (fields : Table Value) :
    stripFields patterns (fields.put key v) =
      Table.put (stripFields patterns fields) key kept := by
  have hall : ∀ w, ∃ w', strip (residual key patterns) w = some w' :=
    exists_strip (any_isEmpty_of_strip h)
  cases hget : fields.get? key with
  | none =>
      have hget' : Table.get? (stripFields patterns fields) key = none := by
        rw [get?_stripFields, hget]
        rfl
      rw [Table.put_of_get?_eq_none hget, Table.put_of_get?_eq_none hget', stripFields_append]
      simp [stripFields, h]
  | some w =>
      obtain ⟨w', hw'⟩ := hall w
      have hget' : Table.get? (stripFields patterns fields) key = some w' := by
        rw [get?_stripFields, hget]
        exact hw'
      rw [Table.put_of_get?_eq_some hget, Table.put_of_get?_eq_some hget']
      rw [stripFields_eq_filterMap, stripFields_eq_filterMap, List.filterMap_map,
        List.map_filterMap]
      apply List.filterMap_congr
      intro e _
      by_cases hkey : e.1 = key
      · obtain ⟨u, hu⟩ := hall e.2
        simp [hkey, hu, h]
      · simp [hkey, Function.comp_def]

end Value

end DocPath

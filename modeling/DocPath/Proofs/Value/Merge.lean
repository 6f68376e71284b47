import Mathlib.Data.List.Basic
import DocPath.Value.Merge

/-!
# What a merge holds

A merge has the kind of its top, and is its top where the kinds differ. Where both are objects, it
is under each key the merge of what the two hold there, and the keys of the base come first.
-/

namespace DocPath.Value

variable {joining : List Path} {path : Path}

@[simp] theorem mergeAt_none_right (base : Option Value) :
    mergeAt joining path base none = base := by
  cases base <;> rfl

@[simp] theorem mergeAt_none_left (top : Option Value) : mergeAt joining path none top = top := by
  cases top <;> rfl

@[simp] theorem mergeAt_some (base top : Value) :
    mergeAt joining path (some base) (some top) = some (overlay joining path base top) := rfl

theorem overlay_object (fields above : Table Value) :
    overlay joining path (object fields) (object above) =
      object (overlayFields joining path fields above) := by
  rw [overlay]

/-- Arrays are joined where a pattern accepts their path; elsewhere the elements of the top come
in front of those that the base has behind them. -/
theorem overlay_array (elements above : List Value) :
    overlay joining path (array elements) (array above) =
      if joining.any (·.accepts path) then array (elements ++ above)
      else array (above ++ elements.drop above.length) := by
  rw [overlay]

/-! ## Kinds -/

theorem kind_overlay (base top : Value) : (overlay joining path base top).kind = top.kind := by
  unfold overlay
  split
  · rfl
  · split <;> rfl
  · rfl

/-- A top of another kind hides the base, and so does a scalar. -/
theorem overlay_eq_top {base top : Value}
    (h : top.isContainer = false ∨ base.kind ≠ top.kind) : overlay joining path base top = top := by
  unfold overlay
  split
  · simp [isContainer, kind] at h
  · simp [isContainer, kind] at h
  · rfl

/-- A value of an array's kind is an array. -/
theorem exists_array_of_kind_eq {v : Value} {xs : List Value} (h : (array xs).kind = v.kind) :
    ∃ ys, v = array ys := by
  cases v with
  | array ys => exact ⟨ys, rfl⟩
  | object | null | bool | number | string => simp [kind] at h

/-- A value of an object's kind is an object. -/
theorem exists_object_of_kind_eq {v : Value} {fs : List (String × Value)}
    (h : (object fs).kind = v.kind) : ∃ gs, v = object gs := by
  cases v with
  | object gs => exact ⟨gs, rfl⟩
  | array | null | bool | number | string => simp [kind] at h

theorem isContainer_of_kind_eq {v w : Value} (h : v.kind = w.kind) :
    v.isContainer = w.isContainer := by
  cases v with
  | array xs =>
      obtain ⟨ys, rfl⟩ := exists_array_of_kind_eq h
      rfl
  | object fs =>
      obtain ⟨gs, rfl⟩ := exists_object_of_kind_eq h
      rfl
  | null | bool | number | string =>
      cases w with
      | array | object => simp [kind] at h
      | null | bool | number | string => rfl

/-- Every top hides a scalar. -/
theorem overlay_of_scalar {base : Value} (h : base.isContainer = false) (top : Value) :
    overlay joining path base top = top := by
  apply overlay_eq_top
  refine or_iff_not_imp_right.2 fun hkind => ?_
  rwa [← isContainer_of_kind_eq (not_not.1 hkind)]

/-! ## Fields -/

/-- What stands under a key of the top is put where the base has it, merged with that. -/
theorem overlayFields_cons {fields : Table Value} {key : String} {top merged : Value}
    (h : mergeAt joining (path ++ [.key key]) (fields.get? key) (some top) = some merged)
    (rest : List (String × Value)) :
    overlayFields joining path fields ((key, top) :: rest) =
      overlayFields joining path (fields.put key merged) rest := by
  rw [overlayFields]
  cases hget : fields.get? key with
  | none =>
      rw [hget, mergeAt_none_left] at h
      cases h
      rw [Table.put_of_get?_eq_none hget]
  | some base =>
      rw [hget, mergeAt_some] at h
      cases h
      rfl

theorem exists_mergeAt (joining : List Path) (path : Path) (base : Option Value) (top : Value) :
    ∃ merged, mergeAt joining path base (some top) = some merged := by
  cases base with
  | none => exact ⟨top, rfl⟩
  | some base => exact ⟨overlay joining path base top, rfl⟩

/-- The keys of the base keep their places, and new ones of the top follow. -/
theorem keys_overlayFields (fields : Table Value) {above : Table Value}
    (habove : above.keys.Nodup) :
    (overlayFields joining path fields above).keys =
      fields.keys ++ above.keys.filter (· ∉ fields.keys) := by
  induction above generalizing fields with
  | nil => simp [overlayFields, Table.keys]
  | cons e above ih =>
      obtain ⟨key, top⟩ := e
      obtain ⟨hfresh, hdistinct⟩ := Table.nodup_keys_cons_iff.1 habove
      obtain ⟨merged, hmerged⟩ :=
        exists_mergeAt joining (path ++ [.key key]) (fields.get? key) top
      rw [overlayFields_cons hmerged, ih _ hdistinct, Table.keys_put, Table.keys_cons]
      by_cases hmem : key ∈ fields.keys
      · rw [if_pos hmem, List.filter_cons_of_neg (by simpa using hmem)]
      · have hrest : (Table.keys above).filter (· ∉ fields.keys ++ [key]) =
            (Table.keys above).filter (· ∉ fields.keys) := by
          apply List.filter_congr
          intro k hk
          have hne : k ≠ key := fun heq => hfresh (heq ▸ hk)
          simp [hne]
        rw [if_neg hmem, List.filter_cons_of_pos (by simpa using hmem), hrest, List.append_assoc]
        rfl

/-- Under each key stands the merge of what the base and the top have there. -/
theorem get?_overlayFields (fields : Table Value) {above : Table Value}
    (habove : above.keys.Nodup) (key : String) :
    (overlayFields joining path fields above).get? key =
      mergeAt joining (path ++ [.key key]) (fields.get? key) (above.get? key) := by
  induction above generalizing fields with
  | nil => simp [overlayFields]
  | cons e above ih =>
      obtain ⟨k, top⟩ := e
      obtain ⟨hfresh, hdistinct⟩ := Table.nodup_keys_cons_iff.1 habove
      obtain ⟨merged, hmerged⟩ :=
        exists_mergeAt joining (path ++ [.key k]) (fields.get? k) top
      rw [overlayFields_cons hmerged, ih _ hdistinct, Table.get?_put, Table.get?_cons]
      by_cases hkey : key = k
      · subst hkey
        have hnone : Table.get? above key = none := (Table.get?_eq_none_iff above key).2 hfresh
        rw [if_pos rfl, if_pos rfl, hnone, mergeAt_none_right, hmerged]
      · rw [if_neg hkey, if_neg hkey]

theorem nodup_keys_overlayFields {fields : Table Value} (h : fields.keys.Nodup)
    (above : Table Value) : (overlayFields joining path fields above).keys.Nodup := by
  induction above generalizing fields with
  | nil => simpa [overlayFields] using h
  | cons e above ih =>
      obtain ⟨key, top⟩ := e
      obtain ⟨merged, hmerged⟩ :=
        exists_mergeAt joining (path ++ [.key key]) (fields.get? key) top
      rw [overlayFields_cons hmerged]
      exact ih (Table.nodup_keys_put h key merged)

end DocPath.Value

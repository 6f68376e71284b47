import Mathlib.Data.List.Nodup
import DocPath.Value.Shape
import DocPath.Proofs.Value.Merge
import DocPath.Proofs.Value.Slot
import DocPath.Proofs.Value.Strip

/-!
# Regular values

A value is regular when its objects have each key once and its numbers are all of some kind. What
stands in a regular value is regular, and writing, stripping and merging keep values regular: each
of them is read key by key, and its keys come from those that were there, each once.
-/

namespace DocPath.Value

variable {N : Number → Prop}

/-- Objects have each key once, and all numbers are of the kind `N`. -/
inductive IsRegular (N : Number → Prop) : Value → Prop where
  | null : IsRegular N null
  | bool (b : Bool) : IsRegular N (bool b)
  | number {n : Number} (kind : N n) : IsRegular N (number n)
  | string (s : String) : IsRegular N (string s)
  | array {elements : List Value} (each : ∀ v ∈ elements, IsRegular N v) :
      IsRegular N (array elements)
  | object {fields : List (String × Value)} (distinct : (Table.keys fields).Nodup)
      (each : ∀ e ∈ fields, IsRegular N e.2) : IsRegular N (object fields)

theorem isRegular_array_iff {elements : List Value} :
    IsRegular N (array elements) ↔ ∀ v ∈ elements, IsRegular N v := by
  constructor
  · rintro (_ | _ | _ | _ | each)
    exact each
  · exact .array

theorem isRegular_object_iff {fields : Table Value} :
    IsRegular N (object fields) ↔
      fields.keys.Nodup ∧ ∀ key v, fields.get? key = some v → IsRegular N v := by
  constructor
  · rintro (_ | _ | _ | _ | _ | ⟨distinct, each⟩)
    exact ⟨distinct, fun key v hget => each (key, v) (Table.mem_of_get? hget)⟩
  · rintro ⟨distinct, each⟩
    exact .object distinct fun e he => each e.1 e.2 (Table.get?_of_mem distinct he)

/-! ## What regularity says -/

theorem haveDistinctKeys_iff {elements : List Value} :
    HaveDistinctKeys elements ↔ ∀ v ∈ elements, v.HasDistinctKeys := by
  induction elements with
  | nil => simp [HaveDistinctKeys]
  | cons v elements ih => simp [HaveDistinctKeys, ih]

theorem fieldsHaveDistinctKeys_iff {fields : List (String × Value)} :
    FieldsHaveDistinctKeys fields ↔ ∀ e ∈ fields, e.2.HasDistinctKeys := by
  induction fields with
  | nil => simp [FieldsHaveDistinctKeys]
  | cons e fields ih => simp [FieldsHaveDistinctKeys, ih]

theorem mem_numbersOfElements {elements : List Value} {n : Number} :
    n ∈ numbersOfElements elements ↔ ∃ v ∈ elements, n ∈ v.numbers := by
  induction elements with
  | nil => simp [numbersOfElements]
  | cons v elements ih => simp [numbersOfElements, ih]

theorem mem_numbersOfFields {fields : List (String × Value)} {n : Number} :
    n ∈ numbersOfFields fields ↔ ∃ e ∈ fields, n ∈ e.2.numbers := by
  induction fields with
  | nil => simp [numbersOfFields]
  | cons e fields ih => simp [numbersOfFields, ih]

/-- A value is regular exactly if no object has a key twice and all numbers are of the kind. -/
theorem isRegular_iff {v : Value} :
    IsRegular N v ↔ v.HasDistinctKeys ∧ ∀ n ∈ v.numbers, N n := by
  induction v using childInduction with
  | scalar v hscalar =>
      cases v with
      | array | object => contradiction
      | null => simp [HasDistinctKeys, numbers, IsRegular.null]
      | bool b => simp [HasDistinctKeys, numbers, IsRegular.bool]
      | string s => simp [HasDistinctKeys, numbers, IsRegular.string]
      | number n =>
          have hnumber : IsRegular N (.number n) ↔ N n := by
            constructor
            · rintro (_ | _ | kind)
              exact kind
            · exact .number
          simp [HasDistinctKeys, numbers, hnumber]
  | array elements ih =>
      rw [isRegular_array_iff, HasDistinctKeys, haveDistinctKeys_iff, numbers]
      simp only [mem_numbersOfElements]
      constructor
      · intro h
        refine ⟨fun v hv => ((ih v hv).1 (h v hv)).1, ?_⟩
        rintro n ⟨v, hv, hn⟩
        exact ((ih v hv).1 (h v hv)).2 n hn
      · rintro ⟨hdistinct, hnumbers⟩ v hv
        exact (ih v hv).2 ⟨hdistinct v hv, fun n hn => hnumbers n ⟨v, hv, hn⟩⟩
  | object fields ih =>
      rw [HasDistinctKeys, fieldsHaveDistinctKeys_iff, numbers]
      simp only [mem_numbersOfFields]
      constructor
      · rintro (_ | _ | _ | _ | _ | ⟨distinct, each⟩)
        refine ⟨⟨distinct, fun e he => ((ih e he).1 (each e he)).1⟩, ?_⟩
        rintro n ⟨e, he, hn⟩
        exact ((ih e he).1 (each e he)).2 n hn
      · rintro ⟨⟨hkeys, hdistinct⟩, hnumbers⟩
        refine .object hkeys fun e he => (ih e he).2 ⟨hdistinct e he, fun n hn => ?_⟩
        exact hnumbers n ⟨e, he, hn⟩

theorem isRegular_true_iff {v : Value} : IsRegular (fun _ => True) v ↔ v.HasDistinctKeys := by
  simp [isRegular_iff]

/-! ## Writing -/

theorem IsRegular.child? {v w : Value} {s : Segment} (h : IsRegular N v)
    (hchild : v.child? s = some w) : IsRegular N w := by
  cases v with
  | array elements =>
      obtain ⟨i, -, hi⟩ := Option.bind_eq_some_iff.1 hchild
      exact isRegular_array_iff.1 h w (List.mem_of_getElem? hi)
  | object fields => exact (isRegular_object_iff.1 h).2 s.text w hchild
  | null | bool | number | string => cases hchild

theorem IsRegular.get? {v w : Value} {p : Path} (hv : IsRegular N v) (h : v.get? p = some w) :
    IsRegular N w := by
  induction p generalizing v with
  | nil =>
      cases h
      exact hv
  | cons s p ih =>
      obtain ⟨u, hu, hw⟩ := Option.bind_eq_some_iff.1 h
      exact ih (hv.child? hu) hw

theorem keys_nodup_indexedFields (elements : List Value) :
    (indexedFields elements).keys.Nodup := by
  rw [keys_indexedFields]
  exact List.nodup_range.map fun _ _ => decimal_inj

theorem IsRegular.indexedFields {elements : List Value} (h : IsRegular N (.array elements)) :
    IsRegular N (.object (indexedFields elements)) := by
  refine .object (keys_nodup_indexedFields elements) fun e he => ?_
  obtain ⟨⟨v, i⟩, hmem, rfl⟩ := List.mem_map.1 he
  exact isRegular_array_iff.1 h v (List.fst_mem_of_mem_zipIdx hmem)

/-- The container that a write comes by is regular where the value before was. -/
theorem Chosen.isRegular_container {preferArrays : Bool} {v : Option Value} {s : Segment}
    {slot : Slot} (h : Chosen preferArrays v s slot) (hv : ∀ w ∈ v, IsRegular N w) :
    IsRegular N slot.container := by
  cases h with
  | element => exact hv _ rfl
  | spread => exact (hv _ rfl).indexedFields
  | field => exact hv _ rfl
  | freshElement => exact .array fun w hw => by cases hw
  | freshField => exact .object List.nodup_nil fun e he => by cases he

theorem isRegular_put {fields : Table Value} {x : Value} (hfields : IsRegular N (object fields))
    (hx : IsRegular N x) (key : String) : IsRegular N (object (fields.put key x)) := by
  obtain ⟨hdistinct, heach⟩ := isRegular_object_iff.1 hfields
  refine isRegular_object_iff.2 ⟨Table.nodup_keys_put hdistinct key x, ?_⟩
  intro key' v hget
  rw [Table.get?_put] at hget
  split at hget
  · cases hget
    exact hx
  · exact heach key' v hget

theorem isRegular_fill {slot : Slot} {x : Value} (hcontainer : IsRegular N slot.container)
    (hx : IsRegular N x) : IsRegular N (slot.fill x) := by
  cases slot with
  | element elements i =>
      have helements := isRegular_array_iff.1 hcontainer
      refine .array fun w hw => ?_
      rcases List.mem_or_eq_of_mem_set hw with hmem | rfl
      · rcases List.mem_append.1 hmem with hold | hpad
        · exact helements w hold
        · rw [List.eq_of_mem_replicate hpad]
          exact .null
      · exact hx
  | field fields key => exact isRegular_put hcontainer hx key

theorem IsRegular.set {preferArrays : Bool} {v : Option Value} (hv : ∀ w ∈ v, IsRegular N w)
    (p : Path) {x : Value} (hx : IsRegular N x) : IsRegular N (set preferArrays v p x) := by
  induction p generalizing v with
  | nil => exact hx
  | cons s p ih =>
      have hslot := chosen_slotFor preferArrays v s
      have hcontainer := hslot.isRegular_container hv
      refine isRegular_fill hcontainer (ih fun w hw => ?_)
      exact hcontainer.child? (hslot.child?_eq ▸ hw)

/-! ## Stripping -/

theorem keys_stripFields_sublist (patterns : List Path) (fields : Table Value) :
    (Table.keys (stripFields patterns fields)).Sublist fields.keys := by
  induction fields with
  | nil => exact List.Sublist.refl _
  | cons e fields ih =>
      rw [stripFields]
      cases strip (residual e.1 patterns) e.2 with
      | none => exact ih.cons e.1
      | some kept => exact ih.cons_cons e.1

theorem IsRegular.strip {patterns : List Path} {v w : Value} (hv : IsRegular N v)
    (h : strip patterns v = some w) : IsRegular N w := by
  have hany := any_isEmpty_of_strip h
  induction v using childInduction generalizing patterns w with
  | scalar v hscalar =>
      rw [strip_scalar hany hscalar] at h
      cases h
      exact hv
  | array elements ih =>
      rw [strip_array hany] at h
      cases h
      refine .array fun w hw => ?_
      rw [stripElements_eq_filterMap] at hw
      obtain ⟨⟨v, i⟩, hmem, hkept⟩ := List.mem_filterMap.1 hw
      have hv' := List.fst_mem_of_mem_zipIdx hmem
      exact ih v hv' (isRegular_array_iff.1 hv v hv') hkept (any_isEmpty_of_strip hkept)
  | object fields ih =>
      rw [strip_object hany] at h
      cases h
      obtain ⟨hdistinct, heach⟩ := isRegular_object_iff.1 hv
      refine isRegular_object_iff.2 ⟨hdistinct.sublist (keys_stripFields_sublist _ _), ?_⟩
      intro key w hget
      rw [get?_stripFields] at hget
      obtain ⟨v, hv', hkept⟩ := Option.bind_eq_some_iff.1 hget
      exact ih (key, v) (Table.mem_of_get? hv') (heach key v hv') hkept
        (any_isEmpty_of_strip hkept)

/-! ## Merging -/

theorem IsRegular.overlay {joining : List Path} {path : Path} {base top : Value}
    (hbase : IsRegular N base) (htop : IsRegular N top) :
    IsRegular N (overlay joining path base top) := by
  induction base using childInduction generalizing path top with
  | scalar base hscalar => rwa [overlay_of_scalar hscalar]
  | array elements =>
      by_cases hkind : (Value.array elements).kind = top.kind
      · obtain ⟨above, rfl⟩ := exists_array_of_kind_eq hkind
        have hbelow := isRegular_array_iff.1 hbase
        have habove := isRegular_array_iff.1 htop
        rw [overlay_array]
        split
        · exact .array fun v hv => (List.mem_append.1 hv).elim (hbelow v) (habove v)
        · exact .array fun v hv => (List.mem_append.1 hv).elim (habove v)
            fun hdropped => hbelow v (List.mem_of_mem_drop hdropped)
      · rwa [overlay_eq_top (.inr hkind)]
  | object fields ih =>
      by_cases hkind : (Value.object fields).kind = top.kind
      · obtain ⟨above, rfl⟩ := exists_object_of_kind_eq hkind
        obtain ⟨hdistinct, hbelow⟩ := isRegular_object_iff.1 hbase
        obtain ⟨hdistinct', habove⟩ := isRegular_object_iff.1 htop
        rw [overlay_object]
        refine isRegular_object_iff.2 ⟨nodup_keys_overlayFields hdistinct above, ?_⟩
        intro key v hget
        rw [get?_overlayFields fields hdistinct'] at hget
        cases hunder : Table.get? fields key with
        | none =>
            rw [hunder, mergeAt_none_left] at hget
            exact habove key v hget
        | some w =>
            rw [hunder] at hget
            cases hover : Table.get? above key with
            | none =>
                rw [hover, mergeAt_none_right] at hget
                cases hget
                exact hbelow key v hunder
            | some u =>
                rw [hover, mergeAt_some] at hget
                cases hget
                exact ih (key, w) (Table.mem_of_get? hunder) (hbelow key w hunder)
                  (habove key u hover)
      · rwa [overlay_eq_top (.inr hkind)]

theorem IsRegular.mergeAt {joining : List Path} {path : Path} {base top : Option Value}
    (hbase : ∀ v ∈ base, IsRegular N v) (htop : ∀ v ∈ top, IsRegular N v) {merged : Value}
    (h : mergeAt joining path base top = some merged) : IsRegular N merged := by
  cases base with
  | none =>
      rw [mergeAt_none_left] at h
      exact htop merged h
  | some base =>
      cases top with
      | none => exact hbase merged h
      | some top =>
          rw [mergeAt_some] at h
          cases h
          exact (hbase base rfl).overlay (htop top rfl)

end DocPath.Value

import DocPath.Value.Access
import DocPath.Proofs.Path.Index

/-!
# One step of a write

A write chooses a slot at each segment and fills it. The choice is laid out once, by cases, as
the container that the slot stands in: the one that was there, the elements of an array under the
texts of their indices, or a fresh one. What a filled slot shows to a read follows from two facts:
filling changes nothing but the slot and the padding in front of it, and a container that is not
discarded shows what the value before showed.
-/

namespace DocPath

namespace Value

theorem get?_nil (v : Value) : v.get? [] = some v := rfl

theorem get?_cons (v : Value) (s : Segment) (p : Path) :
    v.get? (s :: p) = (v.child? s).bind fun w => w.get? p := rfl

theorem get?_append (v : Value) (p q : Path) :
    v.get? (p ++ q) = (v.get? p).bind fun w => w.get? q := by
  induction p generalizing v with
  | nil => rfl
  | cons s p ih =>
      rw [List.cons_append, get?_cons, get?_cons, Option.bind_assoc]
      simp only [ih]

theorem child?_congr {s t : Segment} (h : s.text = t.text) (v : Value) :
    v.child? s = v.child? t := by
  cases v with
  | array elements => simp only [child?, Segment.index?_congr h]
  | object fields => simp only [child?, h]
  | null => rfl
  | bool => rfl
  | number => rfl
  | string => rfl

theorem child?_eq_none_of_scalar {v : Value} (h : v.isContainer = false) (s : Segment) :
    v.child? s = none := by
  cases v with
  | array => contradiction
  | object => contradiction
  | null => rfl
  | bool => rfl
  | number => rfl
  | string => rfl

theorem child?_array_nil (s : Segment) : (array []).child? s = none := by
  simp [child?]

end Value

namespace Slot

/-- The container of a slot, before the slot is filled. -/
def container : Slot → Value
  | element elements _ => .array elements
  | field fields _ => .object fields

/-- The text of the segments that address a slot. -/
def key : Slot → String
  | element _ i => decimal i
  | field _ key => key

/-- A segment addresses one of the nulls that filling the slot puts in front of it. -/
def Pads : Slot → Segment → Prop
  | element elements i, t => ∃ j, t.index? = some j ∧ elements.length ≤ j.toNat ∧ j.toNat < i
  | field _ _, _ => False

/-- A padded array holds the new element, nulls between its old end and that, and its old
elements. -/
theorem getElem?_set_padded (elements : List Value) (i m : Nat) (x : Value) :
    ((elements ++ List.replicate (i + 1 - elements.length) Value.null).set i x)[m]? =
      if m = i then some x
      else if elements.length ≤ m ∧ m < i then some .null
      else elements[m]? := by
  by_cases hm : m = i
  · subst hm
    rw [if_pos rfl, List.getElem?_set_self]
    simp
    omega
  · rw [if_neg hm, List.getElem?_set_ne (Ne.symm hm)]
    by_cases hold : m < elements.length
    · rw [List.getElem?_append_left hold, if_neg (by omega)]
    · rw [List.getElem?_append_right (by omega), List.getElem?_replicate,
        List.getElem?_eq_none (by omega : elements.length ≤ m)]
      by_cases hpad : m < i
      · rw [if_pos (by omega), if_pos ⟨by omega, hpad⟩]
      · rw [if_neg (by omega), if_neg (by omega)]

theorem child?_fill_element (elements : List Value) (i : Nat) (x : Value) (t : Segment) :
    ((element elements i).fill x).child? t = t.index?.bind fun j =>
      if j.toNat = i then some x
      else if elements.length ≤ j.toNat ∧ j.toNat < i then some .null
      else elements[j.toNat]? := by
  simp only [fill, Value.child?, getElem?_set_padded]

theorem child?_fill_field (fields : Table Value) (key : String) (x : Value) (t : Segment) :
    ((field fields key).fill x).child? t =
      if t.text = key then some x else fields.get? t.text :=
  Table.get?_put fields key t.text x

/-- Filling a slot changes what is read nowhere but in the slot and the padding. -/
theorem child?_fill_of_ne {slot : Slot} {t : Segment} (hkey : t.text ≠ slot.key)
    (hpads : ¬slot.Pads t) (x : Value) : (slot.fill x).child? t = slot.container.child? t := by
  cases slot with
  | field fields key =>
      change t.text ≠ key at hkey
      rw [child?_fill_field, if_neg hkey]
      rfl
  | element elements i =>
      rw [child?_fill_element]
      simp only [container, Value.child?]
      cases ht : t.index? with
      | none => rfl
      | some j =>
          have hj : j.toNat ≠ i := by
            rintro rfl
            exact hkey (Segment.index?_eq_some_iff.1 ht)
          change (if j.toNat = i then _ else _) = _
          rw [if_neg hj, if_neg fun hpad => hpads ⟨j, ht, hpad⟩]
          rfl

theorem child?_fill_of_pads {slot : Slot} {t : Segment} (h : slot.Pads t) (x : Value) :
    (slot.fill x).child? t = some .null ∧ slot.container.child? t = none := by
  cases slot with
  | field fields key => exact h.elim
  | element elements i =>
      obtain ⟨j, hj, hlength, hi⟩ := h
      rw [child?_fill_element, hj]
      constructor
      · change (if j.toNat = i then _ else _) = _
        rw [if_neg (by omega), if_pos ⟨hlength, hi⟩]
      · simp only [container, Value.child?, hj]
        exact List.getElem?_eq_none hlength

end Slot

namespace Value

/-- A write at the segment throws the container away that it meets: a key does so with an array,
and an index with an object where arrays are preferred and the index is near enough for one. -/
def Discards (preferArrays : Bool) : Value → Segment → Prop
  | array _, .key _ => True
  | object _, .index i => preferArrays = true ∧ i.toNat ≤ maxPadding
  | _, _ => False

/-- How a write comes by its slot at a segment, case by case. -/
inductive Chosen (preferArrays : Bool) : Option Value → Segment → Slot → Prop where
  | element {elements : List Value} {i : UInt64}
      (near : withinPadding i.toNat elements.length = true) :
      Chosen preferArrays (some (array elements)) (.index i) (.element elements i.toNat)
  | spread {elements : List Value} {i : UInt64}
      (far : withinPadding i.toNat elements.length = false) :
      Chosen preferArrays (some (array elements)) (.index i)
        (.field (indexedFields elements) (decimal i.toNat))
  | field {fields : Table Value} {s : Segment} (kept : ¬Discards preferArrays (object fields) s) :
      Chosen preferArrays (some (object fields)) s (.field fields s.text)
  | freshElement {v : Option Value} {i : UInt64}
      (replaced : ∀ w ∈ v, w.isContainer = true → Discards preferArrays w (.index i))
      (preferred : preferArrays = true) (near : withinPadding i.toNat 0 = true) :
      Chosen preferArrays v (.index i) (.element [] i.toNat)
  | freshField {v : Option Value} {s : Segment}
      (replaced : ∀ w ∈ v, w.isContainer = true → Discards preferArrays w s)
      (unfit : ∀ i, s = .index i → preferArrays = true → withinPadding i.toNat 0 = false) :
      Chosen preferArrays v s (.field [] s.text)

theorem withinPadding_zero {i : Nat} : withinPadding i 0 = true ↔ i ≤ maxPadding := by
  simp [withinPadding]

theorem chosen_freshSlot {preferArrays : Bool} {v : Option Value} {s : Segment}
    (h : ∀ w ∈ v, w.isContainer = true → Discards preferArrays w s) :
    Chosen preferArrays v s (freshSlot preferArrays s) := by
  cases s with
  | key name => exact .freshField h fun i hi => by cases hi
  | index i =>
      rw [freshSlot]
      split
      · rename_i hfits
        obtain ⟨hprefers, hnear⟩ := Bool.and_eq_true_iff.1 hfits
        exact .freshElement h hprefers hnear
      · rename_i hfits
        refine .freshField h fun j hj hprefers => ?_
        cases hj
        simpa [hprefers] using hfits

theorem chosen_slotFor (preferArrays : Bool) (v : Option Value) (s : Segment) :
    Chosen preferArrays v s (slotFor preferArrays v s) := by
  unfold slotFor
  split
  · split
    · rename_i hnear
      exact .element hnear
    · rename_i hfar
      exact .spread (by simpa using hfar)
  · split
    · rename_i fields i hfits
      obtain ⟨hprefers, hnear⟩ := Bool.and_eq_true_iff.1 hfits
      refine chosen_freshSlot fun w hw _ => ?_
      cases hw
      exact ⟨hprefers, withinPadding_zero.1 hnear⟩
    · rename_i fields i hfits
      refine .field fun hdiscards => hfits ?_
      rw [hdiscards.1, withinPadding_zero.2 hdiscards.2]
      rfl
  · exact .field id
  · rename_i harray hindex hkey
    refine chosen_freshSlot fun w hw hcontainer => ?_
    cases hw
    cases w with
    | array elements =>
        cases s with
        | index i => exact (harray elements i rfl rfl).elim
        | key name => exact trivial
    | object fields =>
        cases s with
        | index i => exact (hindex fields i rfl rfl).elim
        | key name => exact (hkey fields name rfl rfl).elim
    | null => contradiction
    | bool => contradiction
    | number => contradiction
    | string => contradiction

/-! ## Elements under the texts of their indices -/

theorem get?_zipIdx_fields (elements : List Value) (n m : Nat) :
    Table.get? ((elements.zipIdx n).map fun (v, i) => (decimal i, v)) (decimal (n + m)) =
      elements[m]? := by
  induction elements generalizing n m with
  | nil => rfl
  | cons v elements ih =>
      rw [List.zipIdx_cons, List.map_cons, Table.get?_cons]
      cases m with
      | zero => rw [Nat.add_zero, if_pos rfl, List.getElem?_cons_zero]
      | succ m =>
          have hne : decimal (n + (m + 1)) ≠ decimal n := by
            intro heq
            have := decimal_inj heq
            omega
          rw [if_neg hne, List.getElem?_cons_succ, ← ih (n + 1) m]
          congr 2
          omega

theorem keys_indexedFields (elements : List Value) :
    Table.keys (indexedFields elements) = (List.range elements.length).map decimal := by
  unfold Table.keys indexedFields
  rw [List.map_map, List.range_eq_range', ← List.zipIdx_map_snd 0 elements, List.map_map]
  rfl

/-- An array whose indices all fit a segment reads the same when its elements stand under the
texts of their indices. -/
theorem get?_indexedFields {elements : List Value} (h : elements.length ≤ UInt64.size)
    (t : Segment) : Table.get? (indexedFields elements) t.text = (array elements).child? t := by
  rw [child?]
  cases ht : t.index? with
  | some j =>
      rw [Segment.index?_eq_some_iff.1 ht, indexedFields, ← Nat.zero_add j.toNat,
        get?_zipIdx_fields]
      rfl
  | none =>
      refine (Table.get?_eq_none_iff _ _).2 fun hmem => ?_
      rw [keys_indexedFields] at hmem
      obtain ⟨m, hm, htext⟩ := List.mem_map.1 hmem
      have hlength := List.mem_range.1 hm
      have hvalue : (UInt64.ofNat m).toNat = m := UInt64.toNat_ofNat_of_lt' (by omega)
      have hindex : t.index? = some (UInt64.ofNat m) := by
        rw [Segment.index?_eq_some_iff, hvalue, htext]
      rw [ht] at hindex
      contradiction

/-! ## What a write finds and leaves at a segment -/

namespace Chosen

variable {preferArrays : Bool} {v : Option Value} {s : Segment} {slot : Slot}

theorem key_eq (h : Chosen preferArrays v s slot) : slot.key = s.text := by
  cases h with
  | element => rfl
  | spread => rfl
  | field => rfl
  | freshElement => rfl
  | freshField => rfl

/-- A write finds in its slot the child that its container has. -/
theorem child?_eq (h : Chosen preferArrays v s slot) : slot.child? = slot.container.child? s := by
  cases h with
  | element => rfl
  | spread => rfl
  | field => rfl
  | freshElement => rfl
  | freshField => rfl

/-- What is written at a segment is read at it. -/
theorem child?_fill (h : Chosen preferArrays v s slot) (x : Value) :
    (slot.fill x).child? s = some x := by
  cases h with
  | element | freshElement =>
      rw [Slot.child?_fill_element]
      exact if_pos rfl
  | spread | field | freshField =>
      rw [Slot.child?_fill_field]
      exact if_pos rfl

/-- A container that is not discarded shows what the value before showed. -/
theorem child?_container (h : Chosen preferArrays v s slot)
    (hkeep : ∀ w ∈ v, ¬Discards preferArrays w s) (t : Segment) :
    slot.container.child? t = v.bind fun w => w.child? t := by
  -- What a fresh container replaces without discarding it is a scalar, if it is anything.
  have hscalar (hreplaced : ∀ w ∈ v, w.isContainer = true → Discards preferArrays w s) :
      v.bind (fun w => w.child? t) = none := by
    refine Option.bind_eq_none_iff.2 fun w hw => child?_eq_none_of_scalar ?_ t
    refine Bool.eq_false_iff.2 fun hcontainer => ?_
    exact hkeep w hw (hreplaced w hw hcontainer)
  cases h with
  | element => rfl
  | field => rfl
  | @spread elements i far =>
      -- The index is too far behind the end, so all indices in the array fit a segment.
      have hlength : elements.length ≤ UInt64.size := by
        have hi : i.toNat < UInt64.size := i.toNat_lt
        simp only [withinPadding, decide_eq_false_iff_not] at far
        omega
      exact get?_indexedFields hlength t
  | freshElement hreplaced =>
      rw [hscalar hreplaced]
      exact child?_array_nil t
  | freshField hreplaced =>
      rw [hscalar hreplaced]
      rfl

/-- A slot in a container that is not discarded holds the child that was there before. -/
theorem child?_eq_bind (h : Chosen preferArrays v s slot)
    (hkeep : ∀ w ∈ v, ¬Discards preferArrays w s) :
    slot.child? = v.bind fun w => w.child? s := by
  rw [h.child?_eq, h.child?_container hkeep]

/-- Where a segment addresses neither the slot nor the padding, nothing changes. -/
theorem child?_fill_of_ne (h : Chosen preferArrays v s slot)
    (hkeep : ∀ w ∈ v, ¬Discards preferArrays w s) {t : Segment} (hne : t.text ≠ s.text)
    (hpads : ¬slot.Pads t) (x : Value) :
    (slot.fill x).child? t = v.bind fun w => w.child? t := by
  rw [← h.key_eq] at hne
  rw [Slot.child?_fill_of_ne hne hpads, h.child?_container hkeep]

/-- Padding reads null, and stands where nothing was. -/
theorem child?_fill_of_pads (h : Chosen preferArrays v s slot)
    (hkeep : ∀ w ∈ v, ¬Discards preferArrays w s) {t : Segment} (hpads : slot.Pads t)
    (x : Value) :
    (slot.fill x).child? t = some null ∧ (v.bind fun w => w.child? t) = none := by
  rw [← h.child?_container hkeep]
  exact Slot.child?_fill_of_pads hpads x

end Chosen

end Value

end DocPath

import DocPath.Proofs.Value.Regular
import DocPath.Proofs.Value.Series

/-!
# How far a write grows a value

Filling a slot adds the new child and the nulls in front of it, and takes the old child away. A
container is padded by no more than the limit, wherever the distance is measured from, and a fresh
one is a single value. So each segment of a path adds at most the limit and one value, and an index
that an array takes is never far behind its end.
-/

namespace DocPath

namespace Value

/-! ## Counting values -/

@[simp] theorem nodes_null : null.nodes = 1 := by simp [nodes]

@[simp] theorem nodesOfElements_append (xs ys : List Value) :
    nodesOfElements (xs ++ ys) = nodesOfElements xs + nodesOfElements ys := by
  induction xs with
  | nil => simp [nodesOfElements]
  | cons x xs ih => simp [nodesOfElements, ih, Nat.add_assoc]

@[simp] theorem nodesOfElements_replicate_null (n : Nat) :
    nodesOfElements (List.replicate n null) = n := by
  induction n with
  | zero => rfl
  | succ n ih =>
      rw [List.replicate_succ, nodesOfElements, ih, nodes_null]
      omega

theorem nodesOfElements_set {elements : List Value} {i : Nat} {w : Value}
    (h : elements[i]? = some w) (x : Value) :
    nodesOfElements (elements.set i x) + w.nodes = nodesOfElements elements + x.nodes := by
  induction elements generalizing i with
  | nil => contradiction
  | cons v elements ih =>
      cases i with
      | zero =>
          cases h
          simp only [List.set_cons_zero, nodesOfElements]
          omega
      | succ i =>
          have hrest := ih h
          simp only [List.set_cons_succ, nodesOfElements]
          omega

@[simp] theorem nodesOfFields_append (fs gs : List (String × Value)) :
    nodesOfFields (fs ++ gs) = nodesOfFields fs + nodesOfFields gs := by
  induction fs with
  | nil => simp [nodesOfFields]
  | cons e fs ih => simp [nodesOfFields, ih, Nat.add_assoc]

theorem nodesOfFields_replace {fields : Table Value} (hdistinct : fields.keys.Nodup)
    {key : String} {w : Value} (h : fields.get? key = some w) (x : Value) :
    nodesOfFields (fields.map fun e => if e.1 == key then (key, x) else e) + w.nodes =
      nodesOfFields fields + x.nodes := by
  induction fields with
  | nil => contradiction
  | cons e fields ih =>
      obtain ⟨k, v⟩ := e
      obtain ⟨hfresh, htail⟩ := Table.nodup_keys_cons_iff.1 hdistinct
      rw [Table.get?_cons] at h
      rw [List.map_cons]
      by_cases hkey : key = k
      · subst hkey
        have hnone : Table.get? fields key = none := (Table.get?_eq_none_iff fields key).2 hfresh
        rw [if_pos rfl] at h
        cases h
        rw [Table.replace_of_get?_eq_none hnone]
        simp only [beq_self_eq_true, if_true, nodesOfFields]
        omega
      · rw [if_neg hkey] at h
        have hrest := ih htail h
        have hne : (k == key) = false := by simpa using Ne.symm hkey
        simp only [hne, Bool.false_eq_true, if_false, nodesOfFields]
        omega

/-- A put adds its value, and takes away what stood under the key. -/
theorem nodesOfFields_put {fields : Table Value} (hdistinct : fields.keys.Nodup) (key : String)
    (x : Value) :
    nodesOfFields (fields.put key x) + (fields.get? key).elim 0 nodes =
      nodesOfFields fields + x.nodes := by
  cases hget : fields.get? key with
  | none =>
      rw [Table.put_of_get?_eq_none hget]
      simp [nodesOfFields]
  | some w =>
      rw [Table.put_of_get?_eq_some hget]
      exact nodesOfFields_replace hdistinct hget x

theorem nodesOfFields_indexedFields (elements : List Value) :
    nodesOfFields (indexedFields elements) = nodesOfElements elements := by
  have hzip : ∀ n, nodesOfFields ((elements.zipIdx n).map fun e => (decimal e.2, e.1)) =
      nodesOfElements elements := by
    induction elements with
    | nil => exact fun _ => rfl
    | cons v elements ih =>
        intro n
        rw [List.zipIdx_cons, List.map_cons, nodesOfFields, nodesOfElements, ih]
  exact hzip 0

end Value

namespace Slot

open DocPath.Value

/-- How many nulls filling a slot puts in front of it. -/
def padding : Slot → Nat
  | element elements i => i - elements.length
  | field _ _ => 0

/-- Filling a slot adds the padding and the new child, and takes the old child away. -/
theorem nodes_fill {N : Number → Prop} {slot : Slot} (h : IsRegular N slot.container) (x : Value) :
    (slot.fill x).nodes + slot.child?.elim 0 nodes =
      slot.container.nodes + slot.padding + x.nodes := by
  cases slot with
  | field fields key =>
      have hput := nodesOfFields_put (isRegular_object_iff.1 h).1 key x
      simp only [fill, child?, container, padding, nodes]
      omega
  | element elements i =>
      simp only [fill, child?, container, padding, nodes]
      by_cases hi : i < elements.length
      · have hpadding : i + 1 - elements.length = 0 := by omega
        have hset := nodesOfElements_set (List.getElem?_eq_getElem hi) x
        rw [hpadding, List.replicate_zero, List.append_nil, List.getElem?_eq_getElem hi,
          Option.elim_some]
        omega
      · -- The last of the nulls in front gives way to the child at once.
        have hpadded : (elements ++ List.replicate (i + 1 - elements.length) null)[i]? =
            some null := by
          rw [List.getElem?_append_right (by omega), List.getElem?_replicate, if_pos (by omega)]
        have hset := nodesOfElements_set hpadded x
        rw [nodesOfElements_append, nodesOfElements_replicate_null, nodes_null] at hset
        rw [List.getElem?_eq_none (by omega), Option.elim_none]
        omega

end Slot

namespace Value

variable {preferArrays : Bool} {v : Option Value} {s : Segment} {slot : Slot}

/-! ## What a write adds at a segment -/

theorem Chosen.padding_le (h : Chosen preferArrays v s slot) : slot.padding ≤ maxPadding := by
  cases h with
  | element near => simpa [Slot.padding, withinPadding] using near
  | freshElement _ _ near => simpa [Slot.padding, withinPadding] using near
  | spread | field | freshField => exact Nat.zero_le _

/-- A container has the values that were there before, unless it is a fresh one. -/
theorem Chosen.nodes_container_le (h : Chosen preferArrays v s slot) :
    slot.container.nodes ≤ v.elim 0 nodes + 1 := by
  cases h with
  | element | field => exact Nat.le_succ _
  | spread =>
      simp only [Slot.container, nodes, nodesOfFields_indexedFields, Option.elim_some]
      omega
  | freshElement | freshField => exact Nat.le_add_left _ _

/-- One segment adds at most the limit and one value to what the write below it adds. -/
theorem nodes_set_cons_le {N : Number → Prop} (preferArrays : Bool) {v : Option Value}
    (hv : ∀ w ∈ v, IsRegular N w) (s : Segment) (p : Path) (x : Value) :
    (set preferArrays v (s :: p) x).nodes + (slotFor preferArrays v s).child?.elim 0 nodes ≤
      v.elim 0 nodes + (maxPadding + 1) +
        (set preferArrays (slotFor preferArrays v s).child? p x).nodes := by
  have hslot := chosen_slotFor preferArrays v s
  have hcontainer := hslot.nodes_container_le
  have hpadding := hslot.padding_le
  rw [set_cons, Slot.nodes_fill (hslot.isRegular_container hv)]
  omega

/-- An index that an array takes can be counted up by one, as long as the array is shorter than
half of all indices. -/
theorem Chosen.index_succ_lt {elements : List Value} {i : Nat}
    (h : Chosen preferArrays v s (.element elements i))
    (hlength : elements.length < 0x8000000000000000) : i + 1 < UInt64.size := by
  have hpadding := h.padding_le
  simp only [Slot.padding, maxPadding] at hpadding
  simp only [UInt64.size]
  omega

/-! ## What a write adds along a path -/

theorem nodes_set_le_of_isRegular {N : Number → Prop} (preferArrays : Bool) {v : Option Value}
    (hv : ∀ w ∈ v, IsRegular N w) (p : Path) (x : Value) :
    (set preferArrays v p x).nodes ≤ v.elim 0 nodes + x.nodes + p.length * (maxPadding + 1) := by
  induction p generalizing v with
  | nil =>
      rw [set]
      omega
  | cons s p ih =>
      have hslot := chosen_slotFor preferArrays v s
      have hcontainer := hslot.isRegular_container hv
      have hchild : ∀ w ∈ (slotFor preferArrays v s).child?, IsRegular N w := fun w hw =>
        hcontainer.child? (hslot.child?_eq ▸ hw)
      -- The rest of the write starts from the old child, which the slot gives up.
      have hstep := nodes_set_cons_le preferArrays hv s p x
      have hrest := ih hchild
      rw [List.length_cons, Nat.succ_mul]
      omega

/-- A write adds to a value no more than what is written, and for each segment the limit of the
padding and one value. At each array on the way that takes its segment, the index can be counted
up by one, as long as the array is shorter than half of all indices. -/
theorem nodes_set_le (preferArrays : Bool) {v : Option Value}
    (hdistinct : ∀ w ∈ v, w.HasDistinctKeys) (p : Path) (x : Value) :
    (set preferArrays v p x).nodes ≤
        v.elim 0 nodes + x.nodes + p.length * (maxPadding + 1) ∧
      ∀ j, ∀ s ∈ p[j]?, ∀ elements i,
        slotFor preferArrays (reached preferArrays v (p.take j)) s = .element elements i →
          elements.length < 0x8000000000000000 → i + 1 < UInt64.size := by
  simp only [← isRegular_true_iff] at hdistinct
  refine ⟨nodes_set_le_of_isRegular preferArrays hdistinct p x, ?_⟩
  intro j s _ elements i helement hlength
  have hslot := chosen_slotFor preferArrays (reached preferArrays v (p.take j)) s
  rw [helement] at hslot
  exact hslot.index_succ_lt hlength

/-- An array that is padded, and in it an object that the largest index makes. -/
theorem nodes_set_le_padded :
    let v := some (object [("x", array [bool true])])
    let p : Path := [.key "x", .index 3, .index 18446744073709551615]
    (∀ w ∈ v, w.HasDistinctKeys) ∧ (set true v p (string "z")).nodes = 7 ∧
      (set true v p (string "z")).nodes ≤
        v.elim 0 nodes + (string "z").nodes + p.length * (maxPadding + 1) ∧
      slotFor true (reached true v (p.take 1)) (.index 3) = .element [bool true] 3 ∧
      3 + 1 < UInt64.size := by
  intro v p
  have hdistinct : ∀ w ∈ v, w.HasDistinctKeys := by
    intro w hw
    obtain rfl := Option.some.inj hw
    simp [HasDistinctKeys, HaveDistinctKeys, FieldsHaveDistinctKeys, Table.keys]
  have hslot : slotFor true (reached true v (p.take 1)) (.index 3) = .element [bool true] 3 := by
    rfl
  obtain ⟨hbound, hindex⟩ := nodes_set_le true hdistinct p (string "z")
  exact ⟨hdistinct, by rfl, hbound, hslot, hindex 1 (.index 3) rfl _ _ hslot (by decide)⟩

end Value

end DocPath

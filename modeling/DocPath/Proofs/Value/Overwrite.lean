import DocPath.Proofs.Value.Series

/-!
# Writing twice at one path

The container that a write leaves at a segment fits that segment, so a second write chooses the
same slot in it again: nothing is discarded, spread or padded a second time. Along a path this
makes of two writes the second one.
-/

namespace DocPath

namespace Slot

/-- An array that was padded to reach a slot is filled in place. -/
theorem fill_element_fill (elements : List Value) (i : Nat) (x : Value) :
    ∃ padded, (element elements i).fill x = .array padded ∧ i < padded.length ∧
      ∀ y, (element padded i).fill y = (element elements i).fill y := by
  have hreached :
      i + 1 ≤ (elements ++ List.replicate (i + 1 - elements.length) Value.null).length := by
    rw [List.length_append, List.length_replicate]
    omega
  refine ⟨_, rfl, ?_, fun y => ?_⟩
  · rw [List.length_set]
    exact hreached
  · simp only [fill, List.length_set]
    rw [Nat.sub_eq_zero_of_le hreached, List.replicate_zero, List.append_nil, List.set_set]

theorem fill_field_put (fields : Table Value) (key : String) (x y : Value) :
    (field (fields.put key x) key).fill y = (field fields key).fill y := by
  simp only [fill, Table.put_put]

end Slot

namespace Value

variable {preferArrays : Bool} {v : Option Value} {s : Segment} {slot : Slot}

/-- An array in whose reach an index lies takes it. -/
theorem slotFor_array_of_near {elements : List Value} {i : UInt64}
    (hnear : withinPadding i.toNat elements.length = true) :
    slotFor preferArrays (some (array elements)) (.index i) = .element elements i.toNat :=
  if_pos hnear

/-- An object that is not discarded takes every segment. -/
theorem slotFor_object_of_kept {fields : Table Value}
    (hkept : ¬Discards preferArrays (object fields) s) :
    slotFor preferArrays (some (object fields)) s = .field fields s.text := by
  cases s with
  | key name => rfl
  | index i =>
      refine if_neg fun hfits => hkept ?_
      obtain ⟨hprefers, hnear⟩ := Bool.and_eq_true_iff.1 hfits
      exact ⟨hprefers, withinPadding_zero.1 hnear⟩

/-- A slot that was filled is filled again in the container that this left. -/
theorem Chosen.fill_slotFor_fill (h : Chosen preferArrays v s slot) (x y : Value) :
    (slotFor preferArrays (some (slot.fill x)) s).fill y = slot.fill y := by
  have hkept := h.not_discards_fill x
  cases h with
  | @element _ i | @freshElement _ i =>
      obtain ⟨padded, hpadded, hreached, hfill⟩ := Slot.fill_element_fill _ i.toNat x
      have hnear : withinPadding i.toNat padded.length = true := by
        simp only [withinPadding, decide_eq_true_eq]
        omega
      rw [hpadded, slotFor_array_of_near hnear]
      exact hfill y
  | spread | field | freshField =>
      rw [Slot.fill, slotFor_object_of_kept hkept]
      exact Slot.fill_field_put _ _ x y

/-- Of two writes at one path, the second is all that is left. -/
theorem set_set (preferArrays : Bool) (v : Option Value) (p : Path) (x y : Value) :
    set preferArrays (some (set preferArrays v p x)) p y = set preferArrays v p y := by
  induction p generalizing v with
  | nil => rfl
  | cons s p ih =>
      have hslot := chosen_slotFor preferArrays v s
      rw [set_cons, set_cons, hslot.child?_slotFor_fill, ih, hslot.fill_slotFor_fill, set_cons]

/-- The first write turns the array into an object, and the second one finds its key there. -/
theorem set_set_spread :
    set true (some (set true (some (array [null])) [.index 70000] (string "a")))
        [.index 70000] (string "b") =
      object [("0", null), ("70000", string "b")] := by
  rw [set_set]
  rfl

end Value

end DocPath

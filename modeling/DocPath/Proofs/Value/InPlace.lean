import DocPath.Proofs.Value.Overwrite
import DocPath.Proofs.Value.Regular

/-!
# Writes in place

A write at a segment is made in place where the container that is there takes the segment as it
is: one of its children is replaced, and the rest of it stays. Replacing a child obeys the laws of
a lens, so a value that is written back where it was read changes nothing. A container that a write
discards never comes back that way, since what replaces it fits the segment.
-/

namespace DocPath.Value

variable {preferArrays : Bool} {v w : Value} {s t : Segment} {p : Path}

/-- A container takes a write at the segment in place: an array at the indices that it has, and an
object at keys, and at indices too unless arrays are preferred and the index is near enough for
one. -/
def TakesInPlace (preferArrays : Bool) : Value → Segment → Prop
  | array elements, .index i => i.toNat < elements.length
  | object _, .key _ => True
  | object _, .index i => preferArrays = false ∨ maxPadding < i.toNat
  | _, _ => False

/-- The container with another child in place of the one that a segment names. -/
def replaceChild : Value → Segment → Value → Value
  | array elements, s, x => array (s.index?.elim elements fun i => elements.set i.toNat x)
  | object fields, s, x => object (Table.put fields s.text x)
  | v, _, _ => v

/-! ## What takes a write in place -/

theorem takesInPlace_object_iff {fields : Table Value} :
    TakesInPlace preferArrays (object fields) s ↔ ¬Discards preferArrays (object fields) s := by
  cases s with
  | key name => simp [TakesInPlace, Discards]
  | index i => cases preferArrays <;> simp [TakesInPlace, Discards]

theorem TakesInPlace.array_or_object (h : TakesInPlace preferArrays v s) :
    (∃ elements i, v = array elements ∧ s = .index i ∧ i.toNat < elements.length) ∨
      ∃ fields, v = object fields ∧ ¬Discards preferArrays (object fields) s := by
  cases v with
  | array elements =>
      cases s with
      | key name => contradiction
      | index i => exact .inl ⟨elements, i, rfl, rfl, h⟩
  | object fields => exact .inr ⟨fields, rfl, takesInPlace_object_iff.1 h⟩
  | null | bool | number | string => cases s <;> contradiction

/-- A container that is not discarded takes a write in place where it has a child. -/
theorem takesInPlace_of_child? (hchild : v.child? s = some w)
    (hkept : ¬Discards preferArrays v s) : TakesInPlace preferArrays v s := by
  cases v with
  | object fields => exact takesInPlace_object_iff.2 hkept
  | array elements =>
      cases s with
      | key name => exact absurd trivial hkept
      | index i => exact (List.getElem?_eq_some_iff.1 hchild).1
  | null | bool | number | string => contradiction

/-- A write in place goes on in the child, and puts the outcome where the child was. -/
theorem set_cons_of_takesInPlace (h : TakesInPlace preferArrays v s) (p : Path) (x : Value) :
    set preferArrays (some v) (s :: p) x =
      v.replaceChild s (set preferArrays (v.child? s) p x) := by
  rcases h.array_or_object with ⟨elements, i, rfl, rfl, hi⟩ | ⟨fields, rfl, hkept⟩
  · have hnear : withinPadding i.toNat elements.length = true := by
      simp only [withinPadding, decide_eq_true_eq]
      omega
    -- The index lies in the array, so nothing is padded.
    have hpadding : i.toNat + 1 - elements.length = 0 := by omega
    rw [set_cons, slotFor_array_of_near hnear]
    simp only [Slot.fill, hpadding, List.replicate_zero, List.append_nil]
    rfl
  · rw [set_cons, slotFor_object_of_kept hkept]
    rfl

/-! ## Replacing a child -/

theorem replaceChild_congr (h : s.text = t.text) (v x : Value) :
    v.replaceChild s x = v.replaceChild t x := by
  cases v with
  | array elements => simp only [replaceChild, Segment.index?_congr h]
  | object fields => simp only [replaceChild, h]
  | null | bool | number | string => rfl

theorem TakesInPlace.replaceChild (h : TakesInPlace preferArrays v t) (s : Segment) (x : Value) :
    TakesInPlace preferArrays (v.replaceChild s x) t := by
  rcases h.array_or_object with ⟨elements, i, rfl, rfl, hi⟩ | ⟨fields, rfl, hkept⟩
  · show i.toNat < (s.index?.elim elements fun j => elements.set j.toNat x).length
    cases s.index? with
    | none => exact hi
    | some j => rwa [Option.elim_some, List.length_set]
  · cases t <;> exact h

theorem child?_replaceChild (h : TakesInPlace preferArrays v s) (x : Value) :
    (v.replaceChild s x).child? s = some x := by
  rcases h.array_or_object with ⟨elements, i, rfl, rfl, hi⟩ | ⟨fields, rfl, -⟩
  · exact List.getElem?_set_self hi
  · exact (Table.get?_put fields s.text s.text x).trans (if_pos rfl)

/-- Segments with different texts have different indices. -/
theorem toNat_ne_of_index? {i j : UInt64} (h : s.text ≠ t.text) (hs : s.index? = some i)
    (ht : t.index? = some j) : i.toNat ≠ j.toNat := by
  intro heq
  apply h
  rw [Segment.index?_eq_some_iff.1 hs, Segment.index?_eq_some_iff.1 ht, heq]

theorem child?_replaceChild_of_ne (h : s.text ≠ t.text) (v x : Value) :
    (v.replaceChild s x).child? t = v.child? t := by
  cases v with
  | object fields => exact (Table.get?_put fields s.text t.text x).trans (if_neg h.symm)
  | array elements =>
      simp only [replaceChild]
      cases hs : s.index? with
      | none => rfl
      | some i =>
          cases ht : t.index? with
          | none => simp [child?, ht]
          | some j =>
              simp only [child?, ht]
              exact List.getElem?_set_ne (toNat_ne_of_index? h hs ht)
  | null | bool | number | string => rfl

theorem replaceChild_replaceChild (v : Value) (s : Segment) (x y : Value) :
    (v.replaceChild s x).replaceChild s y = v.replaceChild s y := by
  cases v with
  | array elements => cases hs : s.index? <;> simp [replaceChild, hs]
  | object fields => simp only [replaceChild, Table.put_put]
  | null | bool | number | string => rfl

/-- A child that is put back changes nothing. -/
theorem replaceChild_child? (hdistinct : v.HasDistinctKeys) (hchild : v.child? s = some w) :
    v.replaceChild s w = v := by
  cases v with
  | array elements =>
      obtain ⟨i, hs, hi⟩ := Option.bind_eq_some_iff.1 hchild
      obtain ⟨hlength, rfl⟩ := List.getElem?_eq_some_iff.1 hi
      simp [replaceChild, hs]
  | object fields => exact congrArg object (Table.put_get? hdistinct.1 hchild)
  | null | bool | number | string => rfl

/-! ## Writing back what was read -/

theorem keepsContainers_cons_succ {k : Nat} (hchild : v.child? s = some w) :
    KeepsContainers preferArrays (some v) (s :: p) (k + 1) ↔
      ¬Discards preferArrays v s ∧ KeepsContainers preferArrays (some w) p k := by
  have hbind : (some v).bind (·.child? s) = some w := hchild
  constructor
  · intro h
    have hrest := h.rest
    rw [hbind] at hrest
    exact ⟨h.first v rfl, hrest⟩
  · rintro ⟨hfirst, hrest⟩ j hj t ht u hu
    cases j with
    | zero =>
        cases ht
        cases hu
        exact hfirst
    | succ j =>
        rw [List.take_succ_cons, bind_get?_cons, hbind] at hu
        exact hrest j (Nat.le_of_succ_le_succ hj) t ht u hu

/-- Writing a value back where it was read changes nothing, the order of fields included, exactly
if the write discards no container on the way. -/
theorem set_get?_eq_self_iff (preferArrays : Bool) {v x : Value} {p : Path}
    (hdistinct : v.HasDistinctKeys) (hread : v.get? p = some x) :
    set preferArrays (some v) p x = v ↔ KeepsContainers preferArrays (some v) p p.length := by
  induction p generalizing v with
  | nil =>
      have hkeep : KeepsContainers preferArrays (some v) [] 0 := by
        intro j _ s hs
        simp at hs
      exact iff_of_true (Option.some.inj hread).symm hkeep
  | cons s p ih =>
      obtain ⟨w, hchild, hrest⟩ := Option.bind_eq_some_iff.1 hread
      have hbelow : w.HasDistinctKeys :=
        isRegular_true_iff.1 ((isRegular_true_iff.2 hdistinct).child? hchild)
      rw [List.length_cons, keepsContainers_cons_succ hchild, ← ih hbelow hrest]
      constructor
      · intro hsame
        -- What a write leaves fits its segment, so a discarded container is not what it leaves.
        have hkept : ¬Discards preferArrays v s := by
          rw [← hsame, set_cons]
          exact (chosen_slotFor preferArrays (some v) s).not_discards_fill _
        have htakes := takesInPlace_of_child? hchild hkept
        have hwritten := child?_replaceChild htakes (set preferArrays (some w) p x)
        rw [set_cons_of_takesInPlace htakes, hchild] at hsame
        rw [hsame, hchild] at hwritten
        exact ⟨hkept, (Option.some.inj hwritten).symm⟩
      · rintro ⟨hkept, hsame⟩
        rw [set_cons_of_takesInPlace (takesInPlace_of_child? hchild hkept), hchild, hsame]
        exact replaceChild_child? hdistinct hchild

/-- An index below an object: written back it is a key of that object, unless arrays are preferred,
when the object gives way to an array. -/
theorem set_get?_eq_self_iff_index_as_key :
    let v := object [("a", object [("7", array [bool true, string "b"]), ("c", null)])]
    let p : Path := [.key "a", .index 7, .index 1]
    v.HasDistinctKeys ∧ v.get? p = some (string "b") ∧
      set false (some v) p (string "b") = v ∧ set true (some v) p (string "b") ≠ v := by
  intro v p
  have hdistinct : v.HasDistinctKeys := by
    simp [v, HasDistinctKeys, HaveDistinctKeys, FieldsHaveDistinctKeys, Table.keys]
  have hread : v.get? p = some (string "b") := by rfl
  have hkeep : KeepsContainers false (some v) p p.length := by
    intro j _ s hs w hw
    rcases j with _ | _ | _ | j
    · cases hs
      cases hw
      exact id
    · cases hs
      cases hw
      exact fun hdiscards => Bool.false_ne_true hdiscards.1
    · cases hs
      cases hw
      exact id
    · cases hs
  have hdiscards : ¬KeepsContainers true (some v) p p.length := by
    intro hkeep
    exact hkeep 1 (by decide) (.index 7) rfl _ rfl ⟨rfl, by decide⟩
  refine ⟨hdistinct, hread, (set_get?_eq_self_iff false hdistinct hread).2 hkeep, ?_⟩
  rw [Ne, set_get?_eq_self_iff true hdistinct hread]
  exact hdiscards

end DocPath.Value

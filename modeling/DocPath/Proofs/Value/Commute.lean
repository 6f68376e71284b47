import DocPath.Proofs.Value.InPlace
import DocPath.Proofs.Value.Similar

/-!
# Writes that commute

Two writes whose paths part in a container that takes both of them in place replace two children
of it, and neither of them sees what the other one does below its own. Which of them comes first
shows in one place only: two keys that are both new to an object stand in the order of the writes.
-/

namespace DocPath.Value

open DocPath.Path

variable {preferArrays : Bool} {v w : Value} {s t : Segment} {p q : Path} {k : Nat}

/-! ## Two children of one container -/

theorem similarFields_put (fields : Table Value) (key : String) {x y : Value}
    (h : Similar x y) : SimilarFields (fields.put key x) (fields.put key y) := by
  cases hget : fields.get? key with
  | none =>
      have hnew : SimilarFields [(key, x)] ([] ++ (key, y) :: []) := .cons h .nil
      rw [Table.put_of_get?_eq_none hget, Table.put_of_get?_eq_none hget]
      exact .append_left fields hnew
  | some w =>
      rw [Table.put_of_get?_eq_some hget, Table.put_of_get?_eq_some hget]
      apply similarFields_map
      intro e _
      by_cases hkey : e.1 = key
      · simp [hkey, h]
      · simp [hkey, Similar.refl]

theorem similar_array_set (elements : List Value) (i : Nat) {x y : Value} (h : Similar x y) :
    Similar (array (elements.set i x)) (array (elements.set i y)) := by
  refine similar_array_iff.2 fun m => ?_
  by_cases hm : i = m
  · subst hm
    rw [List.getElem?_set_self', List.getElem?_set_self']
    cases elements[i]? with
    | none => exact .none
    | some w => exact .some h
  · rw [List.getElem?_set_ne hm, List.getElem?_set_ne hm]
    exact similar_array_iff.1 (.refl (array elements)) m

theorem similar_replaceChild (v : Value) (s : Segment) {x y : Value} (h : Similar x y) :
    Similar (v.replaceChild s x) (v.replaceChild s y) := by
  cases v with
  | array elements =>
      simp only [replaceChild]
      cases s.index? with
      | none => exact .refl _
      | some i => exact similar_array_set elements i.toNat h
  | object fields => exact .object (similarFields_put fields s.text h)
  | null | bool | number | string => exact .refl _

theorem replaceChild_array_comm (hne : s.text ≠ t.text) (elements : List Value) (x y : Value) :
    ((array elements).replaceChild s x).replaceChild t y =
      ((array elements).replaceChild t y).replaceChild s x := by
  simp only [replaceChild]
  cases hs : s.index? with
  | none => rfl
  | some i =>
      cases ht : t.index? with
      | none => rfl
      | some j => exact congrArg array (List.set_comm x y (toNat_ne_of_index? hne hs ht))

/-- Two children are replaced in either order where one of them is there. -/
theorem replaceChild_comm (hne : s.text ≠ t.text)
    (hthere : v.child? s ≠ none ∨ v.child? t ≠ none) (x y : Value) :
    (v.replaceChild s x).replaceChild t y = (v.replaceChild t y).replaceChild s x := by
  cases v with
  | array elements => exact replaceChild_array_comm hne elements x y
  | object fields =>
      refine congrArg object ?_
      rcases hthere with hs | ht
      · obtain ⟨u, hu⟩ := Option.ne_none_iff_exists'.1 hs
        exact Table.put_comm hne hu x y
      · obtain ⟨u, hu⟩ := Option.ne_none_iff_exists'.1 ht
        exact (Table.put_comm hne.symm hu y x).symm
  | null | bool | number | string => rfl

/-- Two new keys stand in the order of the puts, and nothing else tells two orders apart. -/
theorem similar_put_comm {key key' : String} (hne : key ≠ key') (fields : Table Value)
    (x y : Value) :
    Similar (object ((fields.put key x).put key' y)) (object ((fields.put key' y).put key x)) := by
  cases h : fields.get? key with
  | some u => rw [Table.put_comm hne h]
  | none =>
      cases h' : fields.get? key' with
      | some u => rw [Table.put_comm hne.symm h']
      | none =>
          have hnew : (fields.put key' y).get? key = none := by rw [Table.get?_put, if_neg hne, h]
          have hnew' : (fields.put key x).get? key' = none := by
            rw [Table.get?_put, if_neg hne.symm, h']
          have hswap : SimilarFields [(key, x), (key', y)] [(key', y), (key, x)] := by
            rcases similar_swap (.refl x) (.refl y) with _ | _ | _ | _ | _ | swapped
            exact swapped
          rw [Table.put_of_get?_eq_none hnew, Table.put_of_get?_eq_none hnew',
            Table.put_of_get?_eq_none h, Table.put_of_get?_eq_none h', List.append_assoc,
            List.append_assoc]
          exact .object (.append_left fields hswap)

theorem similar_replaceChild_comm (hne : s.text ≠ t.text) (v x y : Value) :
    Similar ((v.replaceChild s x).replaceChild t y) ((v.replaceChild t y).replaceChild s x) := by
  cases v with
  | array elements => rw [replaceChild_array_comm hne]
  | object fields => exact similar_put_comm hne fields x y
  | null | bool | number | string => exact .refl _

/-! ## Two writes -/

/-- Writes whose paths part at once replace two children of the value. -/
theorem set_set_of_ne (hs : TakesInPlace preferArrays v s) (ht : TakesInPlace preferArrays v t)
    (hne : s.text ≠ t.text) (p q : Path) (x y : Value) :
    set preferArrays (some (set preferArrays (some v) (s :: p) x)) (t :: q) y =
      (v.replaceChild s (set preferArrays (v.child? s) p x)).replaceChild t
        (set preferArrays (v.child? t) q y) := by
  rw [set_cons_of_takesInPlace hs, set_cons_of_takesInPlace (ht.replaceChild s _),
    child?_replaceChild_of_ne hne]

/-- Writes whose paths go on in one child are two writes there. -/
theorem set_set_of_same (hs : TakesInPlace preferArrays v s) (ht : TakesInPlace preferArrays v t)
    (hsame : s.text = t.text) (hchild : v.child? s = some w) (p q : Path) (x y : Value) :
    set preferArrays (some (set preferArrays (some v) (s :: p) x)) (t :: q) y =
      v.replaceChild s (set preferArrays (some (set preferArrays (some w) p x)) q y) := by
  rw [set_cons_of_takesInPlace hs, hchild, set_cons_of_takesInPlace (ht.replaceChild s _),
    ← child?_congr hsame, child?_replaceChild hs, ← replaceChild_congr hsame,
    replaceChild_replaceChild]

/-- Up to place `k`, two paths lead to containers that take the segments of both in place. -/
def SharesContainers (preferArrays : Bool) (v : Value) (p q : Path) (k : Nat) : Prop :=
  ∀ j ≤ k, ∃ w ∈ v.get? (p.take j), ∃ s ∈ p[j]?, ∃ t ∈ q[j]?,
    TakesInPlace preferArrays w s ∧ TakesInPlace preferArrays w t

theorem SharesContainers.first (h : SharesContainers preferArrays v (s :: p) (t :: q) k) :
    TakesInPlace preferArrays v s ∧ TakesInPlace preferArrays v t := by
  obtain ⟨w, hw, s', hs, t', ht, htakes⟩ := h 0 (Nat.zero_le k)
  cases hw
  cases hs
  cases ht
  exact htakes

theorem SharesContainers.rest (h : SharesContainers preferArrays v (s :: p) (t :: q) (k + 1)) :
    ∃ w, v.child? s = some w ∧ SharesContainers preferArrays w p q k := by
  obtain ⟨u, hu, -⟩ := h 1 (by omega)
  obtain ⟨w, hchild, -⟩ := Option.bind_eq_some_iff.1 hu
  refine ⟨w, hchild, fun j hj => ?_⟩
  have hplace := h (j + 1) (Nat.succ_le_succ hj)
  rwa [List.take_succ_cons, get?_cons, hchild] at hplace

/-- Writes at paths that part in a container which takes both in place, below containers that do,
give the same value in either order up to the order of fields, and exactly the same one if there
was something at either place already. -/
theorem set_set_comm {preferArrays : Bool} {v : Value} {p q : Path} {k : Nat}
    (hdiverge : DivergeAt p q k) (hshares : SharesContainers preferArrays v p q k) (x y : Value) :
    Similar (set preferArrays (some (set preferArrays (some v) p x)) q y)
        (set preferArrays (some (set preferArrays (some v) q y)) p x) ∧
      (v.get? (p.take (k + 1)) ≠ none ∨ v.get? (q.take (k + 1)) ≠ none →
        set preferArrays (some (set preferArrays (some v) p x)) q y =
          set preferArrays (some (set preferArrays (some v) q y)) p x) := by
  induction k generalizing v p q with
  | zero =>
      obtain ⟨s, p, t, q, rfl, rfl⟩ := hdiverge.exists_cons
      have hne : s.text ≠ t.text := divergeAt_cons_zero.1 hdiverge
      obtain ⟨hs, ht⟩ := hshares.first
      rw [set_set_of_ne hs ht hne, set_set_of_ne ht hs hne.symm]
      refine ⟨similar_replaceChild_comm hne v _ _, fun hthere => ?_⟩
      refine replaceChild_comm hne ?_ _ _
      simpa [get?_cons, get?_nil] using hthere
  | succ k ih =>
      obtain ⟨s, p, t, q, rfl, rfl⟩ := hdiverge.exists_cons
      obtain ⟨hsame, hrest⟩ := divergeAt_cons_succ.1 hdiverge
      obtain ⟨hs, ht⟩ := hshares.first
      obtain ⟨w, hchild, hbelow⟩ := hshares.rest
      -- The segments may be spelled apart, but they name one child, and both writes go on in it.
      have hchild' : v.child? t = some w := child?_congr hsame v ▸ hchild
      obtain ⟨hsimilar, hequal⟩ := ih hrest hbelow
      rw [set_set_of_same hs ht hsame hchild, set_set_of_same ht hs hsame.symm hchild',
        ← replaceChild_congr hsame]
      refine ⟨similar_replaceChild v s hsimilar, fun hthere => ?_⟩
      rw [List.take_succ_cons, List.take_succ_cons, get?_cons, get?_cons, hchild, hchild'] at hthere
      rw [hequal hthere]

/-- Paths that spell their common part differently. A write below a field that is there commutes
with one that adds a field; two writes that both add one differ in the order of the two. -/
theorem set_set_comm_spelled_apart :
    let v := object [("a", object [("7", object [("x", null)])])]
    let p : Path := [.key "a", .index 7, .key "x", .index 3]
    let q : Path := [.key "a", .key "7", .key "y"]
    let q' : Path := [.key "a", .index 7, .key "z"]
    DivergeAt p q 2 ∧ SharesContainers false v p q 2 ∧ v.get? (p.take 3) ≠ none ∧
      set false (some (set false (some v) p (string "b"))) q null =
        set false (some (set false (some v) q null)) p (string "b") ∧
      DivergeAt q q' 2 ∧ SharesContainers false v q q' 2 ∧
      Similar (set false (some (set false (some v) q null)) q' null)
        (set false (some (set false (some v) q' null)) q null) ∧
      set false (some (set false (some v) q null)) q' null ≠
        set false (some (set false (some v) q' null)) q null := by
  intro v p q q'
  have hdiverge : DivergeAt p q 2 :=
    divergeAt_cons_succ.2 ⟨rfl, divergeAt_cons_succ.2 ⟨rfl, divergeAt_cons_zero.2 (by decide)⟩⟩
  have hdiverge' : DivergeAt q q' 2 :=
    divergeAt_cons_succ.2 ⟨rfl, divergeAt_cons_succ.2 ⟨rfl, divergeAt_cons_zero.2 (by decide)⟩⟩
  have hshares : SharesContainers false v p q 2 := by
    intro j hj
    match j with
    | 0 => exact ⟨v, rfl, .key "a", rfl, .key "a", rfl, trivial, trivial⟩
    | 1 => exact ⟨_, rfl, .index 7, rfl, .key "7", rfl, .inl rfl, trivial⟩
    | 2 => exact ⟨_, rfl, .key "x", rfl, .key "y", rfl, trivial, trivial⟩
  have hshares' : SharesContainers false v q q' 2 := by
    intro j hj
    match j with
    | 0 => exact ⟨v, rfl, .key "a", rfl, .key "a", rfl, trivial, trivial⟩
    | 1 => exact ⟨_, rfl, .key "7", rfl, .index 7, rfl, trivial, .inl rfl⟩
    | 2 => exact ⟨_, rfl, .key "y", rfl, .key "z", rfl, trivial, trivial⟩
  have hthere : v.get? (p.take 3) ≠ none := nofun
  refine ⟨hdiverge, hshares, hthere, (set_set_comm hdiverge hshares _ _).2 (.inl hthere),
    hdiverge', hshares', (set_set_comm hdiverge' hshares' _ _).1, ?_⟩
  show object [("a", object [("7", object [("x", null), ("y", null), ("z", null)])])] ≠
    object [("a", object [("7", object [("x", null), ("z", null), ("y", null)])])]
  simp

end DocPath.Value

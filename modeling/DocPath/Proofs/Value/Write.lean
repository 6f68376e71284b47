import DocPath.Proofs.Value.Slot

/-!
# Reading after a write

A write is read back at its own path whatever stood there before. At a path that parts from it,
a read answers as before, as long as no container on the shared way is discarded; the one thing a
write adds there is the nulls of the array that it pads.
-/

namespace DocPath

namespace Path

/-- The texts of two paths agree before place `k`, which both have, and differ there. -/
def DivergeAt (p q : Path) (k : Nat) : Prop :=
  (∀ j < k, (p[j]?).map Segment.text = (q[j]?).map Segment.text) ∧
    ∃ s ∈ p[k]?, ∃ t ∈ q[k]?, s.text ≠ t.text

theorem divergeAt_cons_zero {s t : Segment} {p q : Path} :
    DivergeAt (s :: p) (t :: q) 0 ↔ s.text ≠ t.text := by
  simp [DivergeAt]

theorem divergeAt_cons_succ {s t : Segment} {p q : Path} {k : Nat} :
    DivergeAt (s :: p) (t :: q) (k + 1) ↔ s.text = t.text ∧ DivergeAt p q k := by
  unfold DivergeAt
  rw [Nat.forall_lt_succ_left]
  simp [and_assoc]

theorem DivergeAt.exists_cons {p q : Path} {k : Nat} (h : DivergeAt p q k) :
    ∃ s p' t q', p = s :: p' ∧ q = t :: q' := by
  obtain ⟨-, s, hs, t, ht, -⟩ := h
  cases p with
  | nil => contradiction
  | cons s' p =>
      cases q with
      | nil => contradiction
      | cons t' q => exact ⟨s', p, t', q, rfl, rfl⟩

end Path

namespace Value

open DocPath.Path

theorem set_cons (preferArrays : Bool) (v : Option Value) (s : Segment) (p : Path) (x : Value) :
    set preferArrays v (s :: p) x =
      (slotFor preferArrays v s).fill
        (set preferArrays (slotFor preferArrays v s).child? p x) := rfl

/-- What was written at a path is read there, whatever the value was before. -/
theorem get?_set_self (preferArrays : Bool) (v : Option Value) (p : Path) (x : Value) :
    (set preferArrays v p x).get? p = some x := by
  induction p generalizing v with
  | nil => rfl
  | cons s p ih =>
      rw [set_cons, get?_cons, (chosen_slotFor preferArrays v s).child?_fill]
      exact ih _

/-! ## Paths that part from the written one -/

theorem bind_get?_cons (v : Option Value) (s : Segment) (p : Path) :
    v.bind (·.get? (s :: p)) = (v.bind (·.child? s)).bind (·.get? p) := by
  rw [Option.bind_assoc]
  rfl

theorem bind_get?_nil (v : Option Value) : v.bind (·.get? []) = v := Option.bind_fun_some v

/-- What holds of all that a path meets before its end holds of the value, and of all that the rest
of the path meets in the child. -/
theorem forall_before_cons {motive : Option Value → Prop} {v : Option Value} {s : Segment}
    {q : Path} :
    (∀ r, r <+: s :: q → r ≠ s :: q → motive (v.bind (·.get? r))) ↔
      motive v ∧ ∀ r, r <+: q → r ≠ q → motive ((v.bind (·.child? s)).bind (·.get? r)) := by
  constructor
  · intro h
    constructor
    · have hroot := h [] List.nil_prefix (by simp)
      rwa [bind_get?_nil] at hroot
    · intro r hr hne
      have hrest := h (s :: r) (List.cons_prefix_cons.2 ⟨rfl, hr⟩) (by simpa using hne)
      rwa [bind_get?_cons] at hrest
  · rintro ⟨hfirst, hrest⟩ r hr hne
    cases r with
    | nil => rwa [bind_get?_nil]
    | cons t r =>
        obtain ⟨rfl, hprefix⟩ := List.cons_prefix_cons.1 hr
        rw [bind_get?_cons]
        exact hrest r hprefix (by simpa using hne)

/-- A write of `p` into `v` keeps the containers that it meets up to place `k`. -/
def KeepsContainers (preferArrays : Bool) (v : Option Value) (p : Path) (k : Nat) : Prop :=
  ∀ j ≤ k, ∀ s ∈ p[j]?, ∀ w ∈ v.bind (·.get? (p.take j)), ¬Discards preferArrays w s

/-- The path `q` ends at a null that a write of `p` into `v` pads an array with at place `k`. -/
def PadsAt (preferArrays : Bool) (v : Option Value) (p q : Path) (k : Nat) : Prop :=
  q.length = k + 1 ∧
    ∃ s ∈ p[k]?, ∃ t ∈ q[k]?, (slotFor preferArrays (v.bind (·.get? (p.take k))) s).Pads t

variable {preferArrays : Bool} {v : Option Value} {s t : Segment} {p q : Path} {k : Nat}

theorem KeepsContainers.first (h : KeepsContainers preferArrays v (s :: p) k) :
    ∀ w ∈ v, ¬Discards preferArrays w s := by
  intro w hw
  refine h 0 (Nat.zero_le k) s rfl w ?_
  rw [Option.mem_def.1 hw]
  rfl

theorem KeepsContainers.rest (h : KeepsContainers preferArrays v (s :: p) (k + 1)) :
    KeepsContainers preferArrays (v.bind (·.child? s)) p k := by
  intro j hj u hu w hw
  refine h (j + 1) (Nat.succ_le_succ hj) u hu w ?_
  rwa [List.take_succ_cons, bind_get?_cons]

theorem padsAt_cons_zero :
    PadsAt preferArrays v (s :: p) (t :: q) 0 ↔ q = [] ∧ (slotFor preferArrays v s).Pads t := by
  simp [PadsAt, bind_get?_nil]

theorem padsAt_cons_succ :
    PadsAt preferArrays v (s :: p) (t :: q) (k + 1) ↔
      PadsAt preferArrays (v.bind (·.child? s)) p q k := by
  unfold PadsAt
  rw [List.take_succ_cons, bind_get?_cons]
  simp

/-- Where a path parts from the written one, it ends at the padding or reads what it read. -/
theorem get?_fill_of_ne (hkeep : ∀ w ∈ v, ¬Discards preferArrays w s) (hne : t.text ≠ s.text)
    (x : Value) (q : Path) :
    (q = [] ∧ (slotFor preferArrays v s).Pads t →
      ((slotFor preferArrays v s).fill x).get? (t :: q) = some .null ∧
        v.bind (·.get? (t :: q)) = none) ∧
    (¬(q = [] ∧ (slotFor preferArrays v s).Pads t) →
      ((slotFor preferArrays v s).fill x).get? (t :: q) = v.bind (·.get? (t :: q))) := by
  have hslot := chosen_slotFor preferArrays v s
  rw [bind_get?_cons, get?_cons]
  by_cases hpads : (slotFor preferArrays v s).Pads t
  · obtain ⟨hnull, hnone⟩ := hslot.child?_fill_of_pads hkeep hpads x
    rw [hnull, hnone]
    cases q with
    | nil => simp [hpads, get?_nil]
    | cons u q =>
        -- A null has no children.
        simp [get?_cons, child?]
  · rw [hslot.child?_fill_of_ne hkeep hne hpads]
    simp [hpads]

/-- A path that parts from the written one reads what it read before, except where it ends at the
padding. -/
theorem get?_set_of_divergeAt (hdiverge : DivergeAt p q k)
    (hkeep : KeepsContainers preferArrays v p k) (x : Value) :
    (PadsAt preferArrays v p q k →
      (set preferArrays v p x).get? q = some .null ∧ v.bind (·.get? q) = none) ∧
    (¬PadsAt preferArrays v p q k →
      (set preferArrays v p x).get? q = v.bind (·.get? q)) := by
  induction k generalizing v p q with
  | zero =>
      obtain ⟨s, p, t, q, rfl, rfl⟩ := hdiverge.exists_cons
      have hne : t.text ≠ s.text := (divergeAt_cons_zero.1 hdiverge).symm
      rw [padsAt_cons_zero]
      exact get?_fill_of_ne hkeep.first hne _ q
  | succ k ih =>
      obtain ⟨s, p, t, q, rfl, rfl⟩ := hdiverge.exists_cons
      obtain ⟨hsame, hrest⟩ := divergeAt_cons_succ.1 hdiverge
      have hslot := chosen_slotFor preferArrays v s
      have hchild : (slotFor preferArrays v s).child? = v.bind (·.child? s) :=
        hslot.child?_eq_bind hkeep.first
      -- Both paths go on in the slot, so the rest of the write is seen from its child.
      have hread : (set preferArrays v (s :: p) x).get? (t :: q) =
          (set preferArrays (slotFor preferArrays v s).child? p x).get? q := by
        rw [set_cons, get?_cons, child?_congr hsame.symm, hslot.child?_fill]
        rfl
      have hbefore : v.bind (·.get? (t :: q)) =
          (slotFor preferArrays v s).child?.bind (·.get? q) := by
        rw [bind_get?_cons, hchild]
        simp only [child?_congr hsame]
      have hrest' : KeepsContainers preferArrays (slotFor preferArrays v s).child? p k := by
        rw [hchild]
        exact hkeep.rest
      rw [padsAt_cons_succ, hread, hbefore, ← hchild]
      exact ih hrest hrest'

/-- What a path reads that parts from the written one is still read after the write. A path that
read nothing still does, unless it ends at a null that the write pads in where the two part. -/
theorem get?_set_frame {preferArrays : Bool} {v : Value} {p q : Path} {k : Nat}
    (hdiverge : DivergeAt p q k) (hkeep : KeepsContainers preferArrays (some v) p k)
    (x : Value) :
    (∀ y, v.get? q = some y → (set preferArrays (some v) p x).get? q = some y) ∧
    (v.get? q = none →
      (¬PadsAt preferArrays (some v) p q k → (set preferArrays (some v) p x).get? q = none) ∧
      (PadsAt preferArrays (some v) p q k →
        (set preferArrays (some v) p x).get? q = some .null)) := by
  obtain ⟨hpadded, hsame⟩ := get?_set_of_divergeAt hdiverge hkeep x
  change _ → _ ∧ v.get? q = none at hpadded
  change _ → _ = v.get? q at hsame
  refine ⟨fun y hy => ?_, fun hnone => ⟨fun hpads => ?_, fun hpads => (hpadded hpads).1⟩⟩
  · have hpads : ¬PadsAt preferArrays (some v) p q k := by
      intro hpads
      rw [(hpadded hpads).2] at hy
      contradiction
    rw [hsame hpads, hy]
  · rw [hsame hpads, hnone]

/-- A write behind the end of an array: its elements are read as before, under an index or its
text, and the slot in between reads null. -/
theorem get?_set_frame_behind_end :
    let v := object [("x", array [string "a", string "b"])]
    let p : Path := [.key "x", .index 3]
    let q : Path := [.key "x", .key "1"]
    let q' : Path := [.key "x", .index 2]
    DivergeAt p q 1 ∧ DivergeAt p q' 1 ∧ KeepsContainers true (some v) p 1 ∧
      PadsAt true (some v) p q' 1 ∧ v.get? q = some (string "b") ∧ v.get? q' = none ∧
      (set true (some v) p (string "c")).get? q = some (string "b") ∧
      (set true (some v) p (string "c")).get? q' = some null := by
  intro v p q q'
  have hdiverge : DivergeAt p q 1 :=
    divergeAt_cons_succ.2 ⟨rfl, divergeAt_cons_zero.2 (by decide)⟩
  have hdiverge' : DivergeAt p q' 1 :=
    divergeAt_cons_succ.2 ⟨rfl, divergeAt_cons_zero.2 (by decide)⟩
  have hkeep : KeepsContainers true (some v) p 1 := by
    intro j hj s hs w hw
    match j with
    | 0 =>
        cases hs
        cases hw
        exact id
    | 1 =>
        cases hs
        cases hw
        exact id
  have hpads : PadsAt true (some v) p q' 1 :=
    ⟨rfl, .index 3, rfl, .index 2, rfl, 2, rfl, by decide, by decide⟩
  have hread : v.get? q = some (string "b") := by rfl
  have hnone : v.get? q' = none := by rfl
  exact ⟨hdiverge, hdiverge', hkeep, hpads, hread, hnone,
    (get?_set_frame hdiverge hkeep (string "c")).1 _ hread,
    ((get?_set_frame hdiverge' hkeep (string "c")).2 hnone).2 hpads⟩

-- An index too far behind the end: the elements stay readable in the object that results.
example :
    (set true (some (array [string "a", string "b"])) [.index 70000] (string "c")).get? [.index 1] =
      some (string "b") := by
  rfl

end Value

end DocPath

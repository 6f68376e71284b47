import Mathlib.Data.List.Induction
import DocPath.Proofs.Value.Write

/-!
# Series of writes below one place

A write below a place fits the containers on the way to it, so the next write below that place
keeps them all: from the second write on, a series is a series at the root of what stands at the
place. There a write at one index leaves the values under the others, unless it discards the
object that it finds. So a series of writes at distinct indices either discards no object of its
own, and every value is read back, or it leaves nothing but null in place of a value.
-/

namespace DocPath.Value

variable {preferArrays : Bool} {v : Option Value} {r : Path}

/-! ## The way to the place -/

/-- What a write below a place finds there. -/
def reached (preferArrays : Bool) (v : Option Value) : Path → Option Value
  | [] => v
  | s :: r => reached preferArrays (slotFor preferArrays v s).child? r

/-- A write below a place is read at the place as a write into what it finds there. -/
theorem get?_set_append (preferArrays : Bool) (v : Option Value) (r q : Path) (x : Value) :
    (set preferArrays v (r ++ q) x).get? r =
      some (set preferArrays (reached preferArrays v r) q x) := by
  induction r generalizing v with
  | nil => rfl
  | cons s r ih =>
      rw [List.cons_append, set_cons, get?_cons, (chosen_slotFor preferArrays v s).child?_fill]
      exact ih _

/-- The container of a filled slot fits the segment that chose the slot. -/
theorem Chosen.not_discards_fill {s : Segment} {slot : Slot} (h : Chosen preferArrays v s slot)
    (x : Value) : ¬Discards preferArrays (slot.fill x) s := by
  cases h with
  | element => exact id
  | freshElement => exact id
  | @spread elements i far =>
      rintro ⟨-, hnear⟩
      simp only [withinPadding, decide_eq_false_iff_not] at far
      omega
  | @field fields s kept =>
      cases s with
      | index i => exact kept
      | key name => exact id
  | freshField _ unfit =>
      cases s with
      | key name => exact id
      | index i =>
          rintro ⟨hprefers, hnear⟩
          have hfar := unfit i rfl hprefers
          rw [withinPadding_zero.2 hnear] at hfar
          contradiction

/-- The next write at the same segment finds what the last one filled its slot with. -/
theorem Chosen.child?_slotFor_fill {s : Segment} {slot : Slot} (h : Chosen preferArrays v s slot)
    (x : Value) : (slotFor preferArrays (some (slot.fill x)) s).child? = some x := by
  have hkeep : ∀ w ∈ some (slot.fill x), ¬Discards preferArrays w s := by
    rintro w ⟨⟩
    exact h.not_discards_fill x
  rw [(chosen_slotFor preferArrays _ s).child?_eq_bind hkeep]
  exact h.child?_fill x

theorem reached_set_append (preferArrays : Bool) (v : Option Value) (r q : Path) (x : Value) :
    reached preferArrays (some (set preferArrays v (r ++ q) x)) r =
      some (set preferArrays (reached preferArrays v r) q x) := by
  induction r generalizing v with
  | nil => rfl
  | cons s r ih =>
      rw [List.cons_append, set_cons, reached,
        (chosen_slotFor preferArrays v s).child?_slotFor_fill]
      exact ih _

/-! ## Series -/

/-- The value after writes at indices below a place, one after the other. -/
def setEach (preferArrays : Bool) (r : Path) (v : Option Value) :
    List (UInt64 × Value) → Option Value
  | [] => v
  | (i, x) :: rest => setEach preferArrays r (some (set preferArrays v (r ++ [.index i]) x)) rest

/-- A write of a series, not the first one, discards the object that the writes before it left at
their place: arrays are preferred, and its index is near enough for one. -/
def DiscardsWrites (preferArrays : Bool) (r : Path) (v : Option Value)
    (writes : List (UInt64 × Value)) : Prop :=
  preferArrays = true ∧ ∃ k > 0, ∃ w ∈ writes[k]?, w.1.toNat ≤ maxPadding ∧
    ∃ fields, (setEach preferArrays r v (writes.take k)).bind (·.get? r) = some (object fields)

theorem setEach_concat (preferArrays : Bool) (r : Path) (v : Option Value)
    (writes : List (UInt64 × Value)) (w : UInt64 × Value) :
    setEach preferArrays r v (writes ++ [w]) =
      some (set preferArrays (setEach preferArrays r v writes) (r ++ [.index w.1]) w.2) := by
  induction writes generalizing v with
  | nil => rfl
  | cons w' writes ih => exact ih _

/-- At its place, a series is a series at the root of what its first write finds there. -/
theorem get?_setEach_cons (preferArrays : Bool) (r : Path) (v : Option Value)
    (w : UInt64 × Value) (rest : List (UInt64 × Value)) :
    (setEach preferArrays r v (w :: rest)).bind (·.get? r) =
      setEach preferArrays [] (reached preferArrays v r) (w :: rest) := by
  induction rest generalizing v w with
  | nil => exact get?_set_append preferArrays v r [.index w.1] w.2
  | cons w' rest ih =>
      rw [setEach, ih, reached_set_append]
      rfl

theorem get?_setEach_append {writes : List (UInt64 × Value)} (hne : writes ≠ []) (q : Path) :
    (setEach preferArrays r v writes).bind (·.get? (r ++ q)) =
      (setEach preferArrays [] (reached preferArrays v r) writes).bind (·.get? q) := by
  obtain ⟨w, rest, rfl⟩ := List.exists_cons_of_ne_nil hne
  rw [← get?_setEach_cons, Option.bind_assoc]
  simp only [get?_append]

theorem discardsWrites_below (writes : List (UInt64 × Value)) :
    DiscardsWrites preferArrays r v writes ↔
      DiscardsWrites preferArrays [] (reached preferArrays v r) writes := by
  have hstate {k : Nat} {w : UInt64 × Value} (hk : k > 0) (hw : w ∈ writes[k]?) :
      (setEach preferArrays r v (writes.take k)).bind (·.get? r) =
        (setEach preferArrays [] (reached preferArrays v r) (writes.take k)).bind (·.get? []) := by
    have hlength : k < writes.length := (List.getElem?_eq_some_iff.1 hw).1
    have hne : writes.take k ≠ [] := by
      apply List.ne_nil_of_length_pos
      rw [List.length_take]
      omega
    simpa using get?_setEach_append (r := r) hne []
  constructor
  · rintro ⟨hprefers, k, hk, w, hw, hnear, fields, hobject⟩
    rw [hstate hk hw] at hobject
    exact ⟨hprefers, k, hk, w, hw, hnear, fields, hobject⟩
  · rintro ⟨hprefers, k, hk, w, hw, hnear, fields, hobject⟩
    rw [← hstate hk hw] at hobject
    exact ⟨hprefers, k, hk, w, hw, hnear, fields, hobject⟩

theorem discards_index_iff {w : Value} {i : UInt64} :
    Discards preferArrays w (.index i) ↔
      preferArrays = true ∧ i.toNat ≤ maxPadding ∧ ∃ fields, w = object fields := by
  cases w with
  | object fields => simp [Discards]
  | array elements => simp [Discards]
  | null => simp [Discards]
  | bool => simp [Discards]
  | number => simp [Discards]
  | string => simp [Discards]

/-- A series discards its writes before its last write or at it. -/
theorem discardsWrites_concat (v : Option Value) (writes : List (UInt64 × Value))
    (w : UInt64 × Value) :
    DiscardsWrites preferArrays [] v (writes ++ [w]) ↔
      DiscardsWrites preferArrays [] v writes ∨
        writes ≠ [] ∧
          ∃ u ∈ setEach preferArrays [] v writes, Discards preferArrays u (.index w.1) := by
  have hroot (l : List (UInt64 × Value)) :
      (setEach preferArrays [] v l).bind (·.get? []) = setEach preferArrays [] v l :=
    Option.bind_fun_some _
  simp only [DiscardsWrites, hroot, discards_index_iff]
  constructor
  · rintro ⟨hprefers, k, hk, w', hw', hnear, fields, hobject⟩
    rcases Nat.lt_trichotomy k writes.length with hlt | rfl | hgt
    · rw [List.getElem?_append_left hlt] at hw'
      rw [List.take_append_of_le_length (Nat.le_of_lt hlt)] at hobject
      exact .inl ⟨hprefers, k, hk, w', hw', hnear, fields, hobject⟩
    · obtain rfl : w = w' := by simpa using hw'
      rw [List.take_left] at hobject
      have hne : writes ≠ [] := List.ne_nil_of_length_pos hk
      exact .inr ⟨hne, object fields, hobject, hprefers, hnear, fields, rfl⟩
    · rw [List.getElem?_eq_none (by simp; omega)] at hw'
      contradiction
  · rintro (⟨hprefers, k, hk, w', hw', hnear, fields, hobject⟩ |
      ⟨hne, u, hu, hprefers, hnear, fields, rfl⟩)
    · have hlt : k < writes.length := (List.getElem?_eq_some_iff.1 hw').1
      refine ⟨hprefers, k, hk, w', ?_, hnear, fields, ?_⟩
      · rwa [List.getElem?_append_left hlt]
      · rwa [List.take_append_of_le_length (Nat.le_of_lt hlt)]
    · refine ⟨hprefers, writes.length, List.length_pos_iff.2 hne, w, ?_, hnear, fields, ?_⟩
      · simp
      · rwa [List.take_left]

/-! ## One write of a series -/

variable {i j : UInt64}

/-- Nothing but null is read at a segment. -/
def Blank (v : Option Value) (s : Segment) : Prop := ∀ y ∈ v.bind (·.child? s), y = null

theorem text_index_ne (hne : i ≠ j) : (Segment.index j).text ≠ (Segment.index i).text := by
  intro htext
  exact hne (UInt64.toNat_inj.1 (decimal_inj htext)).symm

/-- A write that discards no container leaves what is read at the other indices. -/
theorem child?_set_index (hkeep : ∀ w ∈ v, ¬Discards preferArrays w (.index i)) (hne : i ≠ j)
    {y : Value} (hread : v.bind (·.child? (.index j)) = some y) (x : Value) :
    (set preferArrays v [.index i] x).child? (.index j) = some y := by
  have hslot := chosen_slotFor preferArrays v (.index i)
  by_cases hpads : (slotFor preferArrays v (.index i)).Pads (.index j)
  · rw [(hslot.child?_fill_of_pads hkeep hpads x).2] at hread
    contradiction
  · change ((slotFor preferArrays v (.index i)).fill x).child? (.index j) = some y
    rw [hslot.child?_fill_of_ne hkeep (text_index_ne hne) hpads, hread]

/-- A write that discards an object leaves nothing but padding beside itself. -/
theorem blank_set_of_discards {w : Value} (hdiscards : Discards preferArrays w (.index i))
    (hne : i ≠ j) (x : Value) :
    Blank (some (set preferArrays (some w) [.index i] x)) (.index j) := by
  obtain ⟨rfl, hnear, fields, rfl⟩ := discards_index_iff.1 hdiscards
  have hslot : slotFor true (some (object fields)) (.index i) = .element [] i.toNat := by
    simp [slotFor, freshSlot, withinPadding_zero.2 hnear]
  intro y hy
  change ((slotFor true (some (object fields)) (.index i)).fill x).child? (.index j) = some y at hy
  rw [hslot] at hy
  by_cases hpads : (Slot.element [] i.toNat).Pads (.index j)
  · rw [(Slot.child?_fill_of_pads hpads x).1] at hy
    exact (Option.some.inj hy).symm
  · rw [Slot.child?_fill_of_ne (text_index_ne hne) hpads] at hy
    rw [Slot.container, child?_array_nil] at hy
    contradiction

/-- What is blank stays blank under writes at other indices. -/
theorem Blank.set (hblank : Blank v (.index j)) (hne : i ≠ j) (x : Value) :
    Blank (some (set preferArrays v [.index i] x)) (.index j) := by
  by_cases hkeep : ∀ w ∈ v, ¬Discards preferArrays w (.index i)
  · have hslot := chosen_slotFor preferArrays v (.index i)
    intro y hy
    change ((slotFor preferArrays v (.index i)).fill x).child? (.index j) = some y at hy
    by_cases hpads : (slotFor preferArrays v (.index i)).Pads (.index j)
    · rw [(hslot.child?_fill_of_pads hkeep hpads x).1] at hy
      exact (Option.some.inj hy).symm
    · rw [hslot.child?_fill_of_ne hkeep (text_index_ne hne) hpads] at hy
      exact hblank y hy
  · obtain ⟨w, rfl, hdiscards⟩ : ∃ w, v = some w ∧ Discards preferArrays w (.index i) := by
      simpa using hkeep
    exact blank_set_of_discards hdiscards hne x

/-! ## All writes of a series -/

theorem nodup_concat {writes : List (UInt64 × Value)} {w : UInt64 × Value}
    (h : ((writes ++ [w]).map Prod.fst).Nodup) :
    (writes.map Prod.fst).Nodup ∧ ∀ w' ∈ writes, w.1 ≠ w'.1 := by
  rw [List.map_append, List.nodup_append] at h
  obtain ⟨hwrites, -, hne⟩ := h
  refine ⟨hwrites, fun w' hmem => ?_⟩
  exact (hne w'.1 (List.mem_map_of_mem hmem) w.1 (by simp)).symm

/-- A series at distinct indices that discards none of its writes keeps all values. -/
theorem child?_setEach {writes : List (UInt64 × Value)}
    (hdistinct : (writes.map Prod.fst).Nodup)
    (hkeep : ¬DiscardsWrites preferArrays [] v writes) :
    ∀ w ∈ writes, (setEach preferArrays [] v writes).bind (·.child? (.index w.1)) = some w.2 := by
  induction writes using List.reverseRecOn with
  | nil => simp
  | append_singleton writes w ih =>
      obtain ⟨hdistinct', hne⟩ := nodup_concat hdistinct
      rw [discardsWrites_concat, not_or] at hkeep
      obtain ⟨hbefore, hlast⟩ := hkeep
      intro w' hw'
      rw [setEach_concat]
      rcases List.mem_append.1 hw' with hmem | hmem
      · have hkept : ∀ u ∈ setEach preferArrays [] v writes,
            ¬Discards preferArrays u (.index w.1) := by
          intro u hu hdiscards
          exact hlast ⟨List.ne_nil_of_mem hmem, u, hu, hdiscards⟩
        exact child?_set_index hkept (hne w' hmem) (ih hdistinct' hbefore w' hmem) w.2
      · obtain rfl := List.mem_singleton.1 hmem
        exact (chosen_slotFor preferArrays _ _).child?_fill w'.2

/-- A series at distinct indices that discards some of its writes leaves a blank among them. -/
theorem exists_blank_setEach {writes : List (UInt64 × Value)}
    (hdistinct : (writes.map Prod.fst).Nodup)
    (hdiscards : DiscardsWrites preferArrays [] v writes) :
    ∃ w ∈ writes, Blank (setEach preferArrays [] v writes) (.index w.1) := by
  induction writes using List.reverseRecOn with
  | nil =>
      obtain ⟨-, k, -, w, hw, -⟩ := hdiscards
      simp at hw
  | append_singleton writes w ih =>
      obtain ⟨hdistinct', hne⟩ := nodup_concat hdistinct
      rw [setEach_concat]
      rcases (discardsWrites_concat v writes w).1 hdiscards with hbefore | ⟨hwrites, u, hu, hlast⟩
      · obtain ⟨w', hmem, hblank⟩ := ih hdistinct' hbefore
        exact ⟨w', List.mem_append_left _ hmem, hblank.set (hne w' hmem) w.2⟩
      · obtain ⟨w', hmem⟩ := List.exists_mem_of_ne_nil writes hwrites
        refine ⟨w', List.mem_append_left _ hmem, ?_⟩
        rw [Option.mem_def.1 hu]
        exact blank_set_of_discards hlast (hne w' hmem) w.2

/-- After writes at distinct indices below a place, every value is read where it was written,
unless one of the later writes discarded an object that the earlier ones left there. In that case
nothing but null is read where one of the values was written. -/
theorem get?_setEach (preferArrays : Bool) (v : Option Value) (r : Path)
    {writes : List (UInt64 × Value)} (hdistinct : (writes.map Prod.fst).Nodup) :
    (¬DiscardsWrites preferArrays r v writes → ∀ w ∈ writes,
      (setEach preferArrays r v writes).bind (·.get? (r ++ [.index w.1])) = some w.2) ∧
    (DiscardsWrites preferArrays r v writes → ∃ w ∈ writes,
      ∀ y ∈ (setEach preferArrays r v writes).bind (·.get? (r ++ [.index w.1])), y = null) := by
  have hread (w : UInt64 × Value) (hw : w ∈ writes) :
      (setEach preferArrays r v writes).bind (·.get? (r ++ [.index w.1])) =
        (setEach preferArrays [] (reached preferArrays v r) writes).bind
          (·.child? (.index w.1)) := by
    rw [get?_setEach_append (List.ne_nil_of_mem hw), bind_get?_cons]
    exact Option.bind_fun_some _
  rw [discardsWrites_below]
  constructor
  · intro hkeep w hw
    rw [hread w hw]
    exact child?_setEach hdistinct hkeep w hw
  · intro hdiscards
    obtain ⟨w, hw, hblank⟩ := exists_blank_setEach hdistinct hdiscards
    refine ⟨w, hw, ?_⟩
    rw [hread w hw]
    exact hblank

/-- Near indices, one of them padded over, and one too far away: the array becomes an object, and
all three values are read. -/
theorem get?_setEach_far_last :
    let writes := [(2, string "c"), (0, string "a"), (70000, string "z")]
    let v := some (object [("x", null)])
    (writes.map Prod.fst).Nodup ∧ ¬DiscardsWrites true [.key "x"] v writes ∧ ∀ w ∈ writes,
      (setEach true [.key "x"] v writes).bind (·.get? ([.key "x"] ++ [.index w.1])) = some w.2 := by
  intro writes v
  have hdistinct : (writes.map Prod.fst).Nodup := by decide
  have hkeep : ¬DiscardsWrites true [.key "x"] v writes := by
    rintro ⟨-, k, hk, w, hw, hnear, fields, hobject⟩
    match k with
    | 1 => cases hobject
    | 2 =>
        cases hw
        contradiction
    | k + 3 => cases hw
  exact ⟨hdistinct, hkeep, (get?_setEach true v [.key "x"] hdistinct).1 hkeep⟩

/-- The other way round, the near index discards the object that the far one left, and the value
under that is lost. -/
theorem setEach_far_first_loses :
    let writes := [(70000, string "z"), (0, string "a")]
    (writes.map Prod.fst).Nodup ∧ ¬∀ w ∈ writes,
      (setEach true [.key "x"] none writes).bind (·.get? ([.key "x"] ++ [.index w.1])) =
        some w.2 := by
  intro writes
  refine ⟨by decide, fun hread => ?_⟩
  have hfar := hread (70000, string "z") List.mem_cons_self
  have hnone : (setEach true [.key "x"] none writes).bind
      (·.get? ([.key "x"] ++ [.index 70000])) = none := by rfl
  rw [hnone] at hfar
  contradiction

end DocPath.Value

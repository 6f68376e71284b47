import Mathlib.Data.List.Forall2
import DocPath.Value.Similar
import DocPath.Proofs.Value.Regular

/-!
# Operations up to the order of fields

Objects with each key once are similar exactly if they hold similar values under each key. All
operations read objects key by key, so on similar values they do similar things: reading, filling
the slot that a write comes by, stripping and merging.
-/

namespace DocPath

namespace Value

theorem similarOption_some_iff {v w : Value} :
    SimilarOption (some v) (some w) ↔ Similar v w := by
  constructor
  · rintro (_ | similar)
    exact similar
  · exact .some

theorem exists_similar_right {a b : Option Value} (h : SimilarOption a b) {w : Value}
    (hw : b = some w) : ∃ v, a = some v ∧ Similar v w := by
  cases h with
  | none => cases hw
  | some similar =>
      cases hw
      exact ⟨_, rfl, similar⟩

theorem similarOption_bind {a b : Option Value} {f g : Value → Option Value}
    (h : SimilarOption a b)
    (hbind : ∀ v w, a = some v → Similar v w → SimilarOption (f v) (g w)) :
    SimilarOption (a.bind f) (b.bind g) := by
  cases h with
  | none => exact .none
  | some similar => exact hbind _ _ rfl similar

theorem similarElements_iff {xs ys : List Value} :
    SimilarElements xs ys ↔ ∀ i : Nat, SimilarOption xs[i]? ys[i]? := by
  induction xs generalizing ys with
  | nil =>
      cases ys with
      | nil => exact ⟨fun _ _ => .none, fun _ => .nil⟩
      | cons y ys =>
          constructor
          · rintro ⟨⟩
          · intro h
            have hfirst := h 0
            rw [List.getElem?_nil, List.getElem?_cons_zero] at hfirst
            cases hfirst
  | cons x xs ih =>
      constructor
      · rintro (_ | ⟨first, rest⟩) i
        cases i with
        | zero => exact .some first
        | succ i => exact ih.1 rest i
      · intro h
        have hfirst := h 0
        cases ys with
        | nil => cases hfirst
        | cons y ys => exact .cons (similarOption_some_iff.1 hfirst) (ih.2 fun i => h (i + 1))

/-- Arrays are similar exactly if they are so index by index. -/
theorem similar_array_iff {xs ys : List Value} :
    Similar (array xs) (array ys) ↔ ∀ i : Nat, SimilarOption xs[i]? ys[i]? := by
  rw [← similarElements_iff]
  constructor
  · rintro (_ | _ | _ | _ | elements)
    exact elements
  · exact .array

theorem SimilarElements.length_eq {xs ys : List Value} (h : SimilarElements xs ys) :
    xs.length = ys.length := by
  induction xs generalizing ys with
  | nil =>
      cases h
      rfl
  | cons x xs ih =>
      rcases h with _ | ⟨-, rest⟩
      simp [ih rest]

theorem Similar.kind_eq {v w : Value} (h : Similar v w) : v.kind = w.kind := by
  cases h <;> rfl

/-- What is similar to a scalar is that scalar. -/
theorem Similar.eq_of_scalar {v w : Value} (h : Similar v w) (hv : v.isContainer = false) :
    v = w := by
  cases h with
  | null => rfl
  | bool => rfl
  | number => rfl
  | string => rfl
  | array => contradiction
  | object => contradiction

/-- Fields are similar that are so one by one, each at its own place. -/
theorem similarFields_map {f g : String × Value → String × Value} {fields : List (String × Value)}
    (h : ∀ e ∈ fields, (f e).1 = (g e).1 ∧ Similar (f e).2 (g e).2) :
    SimilarFields (fields.map f) (fields.map g) := by
  induction fields with
  | nil => exact .nil
  | cons e fields ih =>
      obtain ⟨hkey, hfirst⟩ := h e List.mem_cons_self
      have hrest := ih fun e' he' => h e' (List.mem_cons_of_mem e he')
      have hcounterpart : g e = ((f e).1, (g e).2) := Prod.ext hkey.symm rfl
      have hplace : SimilarFields (f e :: fields.map f)
          ([] ++ ((f e).1, (g e).2) :: fields.map g) := .cons hfirst hrest
      rw [List.map_cons, List.map_cons, hcounterpart]
      exact hplace

@[refl] theorem Similar.refl (v : Value) : Similar v v := by
  induction v using childInduction with
  | scalar v hscalar =>
      cases v with
      | array | object => contradiction
      | null => exact .null
      | bool b => exact .bool b
      | number n => exact .number n
      | string s => exact .string s
  | array xs ih =>
      refine similar_array_iff.2 fun i => ?_
      cases hi : xs[i]? with
      | none => exact .none
      | some x => exact .some (ih x (List.mem_of_getElem? hi))
  | object fs ih =>
      have hfields : SimilarFields (fs.map id) (fs.map id) :=
        similarFields_map fun e he => ⟨rfl, ih e he⟩
      rw [List.map_id] at hfields
      exact .object hfields

theorem SimilarFields.append_left (before : List (String × Value))
    {fs gs : List (String × Value)} (h : SimilarFields fs gs) :
    SimilarFields (before ++ fs) (before ++ gs) := by
  induction before with
  | nil => exact h
  | cons e before ih =>
      have hplace : SimilarFields (e :: (before ++ fs)) ([] ++ e :: (before ++ gs)) :=
        .cons (.refl e.2) ih
      exact hplace

/-! ## Objects key by key -/

theorem SimilarFields.keys_perm {fs gs : Table Value} (h : SimilarFields fs gs) :
    fs.keys.Perm gs.keys := by
  induction fs generalizing gs with
  | nil =>
      cases h
      exact .refl _
  | cons e fs ih =>
      rcases h with _ | ⟨first, rest⟩
      rename_i key v w before behind
      have hrest := ih rest
      simp only [Table.keys, List.map_cons, List.map_append] at hrest ⊢
      exact (hrest.cons key).trans List.perm_middle.symm

theorem get?_middle {before behind : Table Value} {key : String}
    (h : key ∉ Table.keys (before ++ behind)) (w : Value) (key' : String) :
    Table.get? (before ++ (key, w) :: behind) key' =
      if key' = key then some w else Table.get? (before ++ behind) key' := by
  rw [Table.get?_append, Table.get?_append, Table.get?_cons]
  by_cases hkey : key' = key
  · have hbefore : key ∉ Table.keys before := by
      intro hmem
      apply h
      rw [Table.keys, List.map_append]
      exact List.mem_append_left _ hmem
    have hnone : Table.get? before key = none := (Table.get?_eq_none_iff before key).2 hbefore
    simp [hkey, hnone]
  · simp [hkey]

/-- Similar fields hold similar values under each key. -/
theorem SimilarFields.get? {fs gs : Table Value} (h : SimilarFields fs gs)
    (hdistinct : fs.keys.Nodup) (key : String) :
    SimilarOption (fs.get? key) (gs.get? key) := by
  induction fs generalizing gs with
  | nil =>
      cases h
      exact .none
  | cons e fs ih =>
      rcases h with _ | ⟨first, rest⟩
      rename_i k v w before behind
      obtain ⟨hfresh, htail⟩ := Table.nodup_keys_cons_iff.1 hdistinct
      have hfresh' : k ∉ Table.keys (before ++ behind) := by
        rwa [← rest.keys_perm.mem_iff]
      rw [Table.get?_cons, get?_middle hfresh']
      by_cases hkey : key = k
      · rw [if_pos hkey, if_pos hkey]
        exact .some first
      · rw [if_neg hkey, if_neg hkey]
        exact ih rest htail

/-- Fields with each key once are similar if they hold similar values under each key. -/
theorem similarFields_of_get? {fs gs : Table Value} (hfs : fs.keys.Nodup) (hgs : gs.keys.Nodup)
    (h : ∀ key, SimilarOption (fs.get? key) (gs.get? key)) : SimilarFields fs gs := by
  induction fs generalizing gs with
  | nil =>
      cases gs with
      | nil => exact .nil
      | cons e gs =>
          have hfirst := h e.1
          rw [Table.get?_nil, Table.get?_cons, if_pos rfl] at hfirst
          cases hfirst
  | cons e fs ih =>
      obtain ⟨k, v⟩ := e
      obtain ⟨hfresh, htail⟩ := Table.nodup_keys_cons_iff.1 hfs
      have hfirst := h k
      rw [Table.get?_cons, if_pos rfl] at hfirst
      cases hget : gs.get? k with
      | none =>
          rw [hget] at hfirst
          cases hfirst
      | some w =>
          rw [hget, similarOption_some_iff] at hfirst
          obtain ⟨before, behind, rfl⟩ := List.append_of_mem (Table.mem_of_get? hget)
          have hperm : (Table.keys (before ++ (k, w) :: behind)).Perm
              (k :: Table.keys (before ++ behind)) := by
            simp only [Table.keys, List.map_append, List.map_cons]
            exact List.perm_middle
          obtain ⟨hfresh', hrest⟩ := List.nodup_cons.1 (hperm.nodup_iff.1 hgs)
          refine .cons hfirst (ih htail hrest fun key => ?_)
          by_cases hkey : key = k
          · rw [hkey, (Table.get?_eq_none_iff fs k).2 hfresh,
              (Table.get?_eq_none_iff _ k).2 hfresh']
            exact .none
          · have hsame := h key
            rwa [Table.get?_cons, get?_middle hfresh', if_neg hkey, if_neg hkey] at hsame

/-- Objects with each key once are similar exactly if they are so key by key. -/
theorem similar_object_iff {fs gs : Table Value} (hfs : fs.keys.Nodup) (hgs : gs.keys.Nodup) :
    Similar (object fs) (object gs) ↔ ∀ key, SimilarOption (fs.get? key) (gs.get? key) := by
  constructor
  · rintro (_ | _ | _ | _ | _ | fields)
    exact fields.get? hfs
  · intro h
    exact .object (similarFields_of_get? hfs hgs h)

/-- What is similar to a regular value is regular. -/
theorem IsRegular.of_similar {N : Number → Prop} {v w : Value} (hv : IsRegular N v)
    (h : Similar v w) : IsRegular N w := by
  induction v using childInduction generalizing w with
  | scalar v hscalar =>
      obtain rfl := h.eq_of_scalar hscalar
      exact hv
  | array xs ih =>
      obtain ⟨ys, rfl⟩ := exists_array_of_kind_eq h.kind_eq
      refine .array fun y hy => ?_
      obtain ⟨i, hi⟩ := List.mem_iff_getElem?.1 hy
      obtain ⟨x, hx, hsimilar⟩ := exists_similar_right (similar_array_iff.1 h i) hi
      have hmem : x ∈ xs := List.mem_of_getElem? hx
      exact ih x hmem (isRegular_array_iff.1 hv x hmem) hsimilar
  | object fs ih =>
      obtain ⟨gs, rfl⟩ := exists_object_of_kind_eq h.kind_eq
      obtain ⟨hdistinct, heach⟩ := isRegular_object_iff.1 hv
      rcases h with _ | _ | _ | _ | _ | fields
      refine isRegular_object_iff.2 ⟨fields.keys_perm.nodup_iff.1 hdistinct, ?_⟩
      intro key w hw
      obtain ⟨v, hget, hsimilar⟩ := exists_similar_right (fields.get? hdistinct key) hw
      exact ih (key, v) (Table.mem_of_get? hget) (heach key v hget) hsimilar

/-- Similar objects, of which one has each key once, are similar key by key. -/
theorem similar_get? {fs gs : Table Value} (h : Similar (object fs) (object gs))
    (hfs : fs.keys.Nodup) (key : String) : SimilarOption (fs.get? key) (gs.get? key) := by
  rcases h with _ | _ | _ | _ | _ | fields
  exact fields.get? hfs key

section Operations

variable {N : Number → Prop}

/-! ## Reading -/

theorem Similar.child? {v w : Value} (h : Similar v w) (hv : IsRegular N v) (s : Segment) :
    SimilarOption (v.child? s) (w.child? s) := by
  cases v with
  | array xs =>
      obtain ⟨ys, rfl⟩ := exists_array_of_kind_eq h.kind_eq
      simp only [Value.child?]
      cases s.index? with
      | none => exact .none
      | some i => exact similar_array_iff.1 h i.toNat
  | object fs =>
      obtain ⟨gs, rfl⟩ := exists_object_of_kind_eq h.kind_eq
      exact similar_get? h (isRegular_object_iff.1 hv).1 s.text
  | null | bool | number | string =>
      obtain rfl := h.eq_of_scalar rfl
      exact .none

theorem Similar.get? {v w : Value} (h : Similar v w) (hv : IsRegular N v) (p : Path) :
    SimilarOption (v.get? p) (w.get? p) := by
  induction p generalizing v w with
  | nil => exact .some h
  | cons s p ih =>
      exact similarOption_bind (h.child? hv s) fun v' w' hchild hsimilar =>
        ih hsimilar (hv.child? hchild)

/-! ## Writing -/

/-- Slots at one place of similar containers. -/
inductive SimilarSlots : Slot → Slot → Prop where
  | element {xs ys : List Value} (similar : Similar (array xs) (array ys)) (i : Nat) :
      SimilarSlots (.element xs i) (.element ys i)
  | field {fs gs : Table Value} (similar : Similar (object fs) (object gs)) (key : String) :
      SimilarSlots (.field fs key) (.field gs key)

theorem similarSlots_freshSlot (preferArrays : Bool) (s : Segment) :
    SimilarSlots (freshSlot preferArrays s) (freshSlot preferArrays s) := by
  have helement : ∀ i, SimilarSlots (.element [] i) (.element [] i) := .element (.array .nil)
  have hfield : ∀ key, SimilarSlots (.field [] key) (.field [] key) := .field (.object .nil)
  cases s with
  | key name => exact hfield name
  | index i =>
      rw [freshSlot]
      split
      · exact helement i.toNat
      · exact hfield _

theorem similar_indexedFields {xs ys : List Value} (h : SimilarElements xs ys) :
    Similar (object (indexedFields xs)) (object (indexedFields ys)) := by
  have hzip : ∀ n, SimilarFields ((xs.zipIdx n).map fun e => (decimal e.2, e.1))
      ((ys.zipIdx n).map fun e => (decimal e.2, e.1)) := by
    induction xs generalizing ys with
    | nil =>
        cases h
        exact fun _ => .nil
    | cons x xs ih =>
        rcases h with _ | ⟨first, rest⟩
        rename_i y ys
        intro n
        -- The counterpart of a field stands at its own place.
        have hplace : SimilarFields
            ((decimal n, x) :: (xs.zipIdx (n + 1)).map fun e => (decimal e.2, e.1))
            ([] ++ (decimal n, y) :: (ys.zipIdx (n + 1)).map fun e => (decimal e.2, e.1)) :=
          .cons first (ih rest (n + 1))
        exact hplace
  exact .object (hzip 0)

theorem similarSlots_slotFor (preferArrays : Bool) {v w : Option Value}
    (h : SimilarOption v w) (s : Segment) :
    SimilarSlots (slotFor preferArrays v s) (slotFor preferArrays w s) := by
  have hfresh := similarSlots_freshSlot preferArrays s
  cases h with
  | none => exact hfresh
  | some similar =>
      cases similar with
      | null | bool | number | string => exact hfresh
      | array elements =>
          cases s with
          | key name => exact hfresh
          | index i =>
              simp only [slotFor, elements.length_eq]
              split
              · exact .element (.array elements) i.toNat
              · exact .field (similar_indexedFields elements) _
      | object fields =>
          cases s with
          | key name => exact .field (.object fields) name
          | index i =>
              simp only [slotFor]
              split
              · exact hfresh
              · exact .field (.object fields) _

theorem SimilarSlots.child? {slot slot' : Slot} (h : SimilarSlots slot slot')
    (hslot : IsRegular N slot.container) : SimilarOption slot.child? slot'.child? := by
  cases h with
  | element similar i => exact similar_array_iff.1 similar i
  | field similar key => exact similar_get? similar (isRegular_object_iff.1 hslot).1 key

theorem SimilarSlots.fill {slot slot' : Slot} (h : SimilarSlots slot slot')
    (hslot : IsRegular N slot.container) {x y : Value} (hxy : Similar x y) :
    Similar (slot.fill x) (slot'.fill y) := by
  cases h with
  | @element xs ys similar i =>
      have hlength : xs.length = ys.length := by
        rcases similar with _ | _ | _ | _ | elements
        exact elements.length_eq
      refine similar_array_iff.2 fun m => ?_
      rw [Slot.getElem?_set_padded, Slot.getElem?_set_padded, hlength]
      split
      · exact .some hxy
      · split
        · exact .some .null
        · exact similar_array_iff.1 similar m
  | @field fs gs similar key =>
      have hfs : fs.keys.Nodup := (isRegular_object_iff.1 hslot).1
      have hgs : gs.keys.Nodup := (isRegular_object_iff.1 (hslot.of_similar similar)).1
      refine (similar_object_iff (Table.nodup_keys_put hfs key x)
        (Table.nodup_keys_put hgs key y)).2 fun key' => ?_
      rw [Table.get?_put, Table.get?_put]
      split
      · exact .some hxy
      · exact similar_get? similar hfs key'

theorem similar_set (preferArrays : Bool) {v w : Option Value} (h : SimilarOption v w)
    (hv : ∀ u ∈ v, IsRegular N u) (p : Path) {x y : Value} (hxy : Similar x y) :
    Similar (set preferArrays v p x) (set preferArrays w p y) := by
  induction p generalizing v w with
  | nil => exact hxy
  | cons s p ih =>
      have hslot := chosen_slotFor preferArrays v s
      have hcontainer := hslot.isRegular_container hv
      have hslots := similarSlots_slotFor preferArrays h s
      refine hslots.fill hcontainer (ih (hslots.child? hcontainer) fun u hu => ?_)
      exact hcontainer.child? (hslot.child?_eq ▸ hu)

/-! ## Stripping -/

theorem similarElements_stripElements {patterns : List Path} {xs ys : List Value}
    (h : SimilarElements xs ys)
    (hstrip : ∀ x ∈ xs, ∀ y patterns, Similar x y →
      SimilarOption (strip patterns x) (strip patterns y)) (i : Nat) :
    SimilarElements (stripElements patterns i xs) (stripElements patterns i ys) := by
  induction xs generalizing ys i with
  | nil =>
      cases h
      exact .nil
  | cons x xs ih =>
      rcases h with _ | ⟨first, rest⟩
      rename_i y ys
      have hrest := ih rest (fun x' hx' => hstrip x' (List.mem_cons_of_mem x hx')) (i + 1)
      have hfirst := hstrip x List.mem_cons_self y (residual (decimal i) patterns) first
      rw [stripElements, stripElements]
      generalize strip (residual (decimal i) patterns) x = a at hfirst ⊢
      generalize strip (residual (decimal i) patterns) y = b at hfirst ⊢
      cases hfirst with
      | none => exact hrest
      | some similar => exact .cons similar hrest

theorem similarOption_strip_of_any {patterns : List Path}
    (h : patterns.any List.isEmpty = true) (v w : Value) :
    SimilarOption (strip patterns v) (strip patterns w) := by
  rw [strip_eq_none_iff.2 h, strip_eq_none_iff.2 h]
  exact .none

theorem Similar.strip {v w : Value} (h : Similar v w) (hv : IsRegular N v)
    (patterns : List Path) : SimilarOption (strip patterns v) (strip patterns w) := by
  induction v using childInduction generalizing patterns w with
  | scalar v hscalar =>
      obtain rfl := h.eq_of_scalar hscalar
      cases hany : patterns.any List.isEmpty with
      | true => exact similarOption_strip_of_any hany _ _
      | false =>
          rw [strip_scalar hany hscalar]
          exact .some h
  | array xs ih =>
      obtain ⟨ys, rfl⟩ := exists_array_of_kind_eq h.kind_eq
      cases hany : patterns.any List.isEmpty with
      | true => exact similarOption_strip_of_any hany _ _
      | false =>
          rw [strip_array hany, strip_array hany]
          rcases h with _ | _ | _ | _ | elements
          refine .some (.array (similarElements_stripElements elements ?_ 0))
          intro x hx y patterns hxy
          exact ih x hx hxy (isRegular_array_iff.1 hv x hx) patterns
  | object fs ih =>
      obtain ⟨gs, rfl⟩ := exists_object_of_kind_eq h.kind_eq
      cases hany : patterns.any List.isEmpty with
      | true => exact similarOption_strip_of_any hany _ _
      | false =>
          obtain ⟨hfs, heach⟩ := isRegular_object_iff.1 hv
          have hgs : (Table.keys gs).Nodup := (isRegular_object_iff.1 (hv.of_similar h)).1
          rw [strip_object hany, strip_object hany]
          refine .some ((similar_object_iff (hfs.sublist (keys_stripFields_sublist patterns fs))
            (hgs.sublist (keys_stripFields_sublist patterns gs))).2 fun key => ?_)
          rw [get?_stripFields, get?_stripFields]
          refine similarOption_bind (similar_get? h hfs key) fun v w hget hsimilar => ?_
          exact ih (key, v) (Table.mem_of_get? hget) hsimilar (heach key v hget) _

/-! ## Merging -/

theorem similarElements_append {xs ys xs' ys' : List Value} (h : SimilarElements xs ys)
    (h' : SimilarElements xs' ys') : SimilarElements (xs ++ xs') (ys ++ ys') := by
  induction xs generalizing ys with
  | nil =>
      cases h
      exact h'
  | cons x xs ih =>
      rcases h with _ | ⟨first, rest⟩
      exact .cons first (ih rest)

theorem similarElements_drop {xs ys : List Value} (h : SimilarElements xs ys) (n : Nat) :
    SimilarElements (xs.drop n) (ys.drop n) := by
  refine similarElements_iff.2 fun i => ?_
  rw [List.getElem?_drop, List.getElem?_drop]
  exact similarElements_iff.1 h (n + i)

theorem similar_mergeAt_of_overlay {joining : List Path} {path : Path}
    {base base' top top' : Option Value} (hbase : SimilarOption base base')
    (htop : SimilarOption top top')
    (h : ∀ v w v' w', base = some v → top = some w → Similar v v' → Similar w w' →
      Similar (overlay joining path v w) (overlay joining path v' w')) :
    SimilarOption (mergeAt joining path base top) (mergeAt joining path base' top') := by
  cases hbase with
  | none =>
      rw [mergeAt_none_left, mergeAt_none_left]
      exact htop
  | some similar =>
      cases htop with
      | none => exact .some similar
      | some similar' => exact .some (h _ _ _ _ rfl rfl similar similar')

theorem Similar.overlay {joining : List Path} {path : Path} {base base' top top' : Value}
    (hbase : Similar base base') (htop : Similar top top') (hregular : IsRegular N base)
    (hregular' : IsRegular N top) :
    Similar (overlay joining path base top) (overlay joining path base' top') := by
  induction base using childInduction generalizing path base' top top' with
  | scalar base hscalar =>
      obtain rfl := hbase.eq_of_scalar hscalar
      rwa [overlay_of_scalar hscalar, overlay_of_scalar hscalar]
  | array xs ih =>
      by_cases hkind : (Value.array xs).kind = top.kind
      · obtain ⟨ys, rfl⟩ := exists_array_of_kind_eq hbase.kind_eq
        obtain ⟨xs', rfl⟩ := exists_array_of_kind_eq hkind
        obtain ⟨ys', rfl⟩ := exists_array_of_kind_eq htop.kind_eq
        rcases hbase with _ | _ | _ | _ | below
        rcases htop with _ | _ | _ | _ | above
        rw [overlay_array, overlay_array, above.length_eq]
        split
        · exact .array (similarElements_append below above)
        · exact .array (similarElements_append above (similarElements_drop below _))
      · have hkind' : base'.kind ≠ top'.kind := by rwa [← hbase.kind_eq, ← htop.kind_eq]
        rwa [overlay_eq_top (.inr hkind), overlay_eq_top (.inr hkind')]
  | object fs ih =>
      by_cases hkind : (Value.object fs).kind = top.kind
      · obtain ⟨gs, rfl⟩ := exists_object_of_kind_eq hbase.kind_eq
        obtain ⟨fs', rfl⟩ := exists_object_of_kind_eq hkind
        obtain ⟨gs', rfl⟩ := exists_object_of_kind_eq htop.kind_eq
        obtain ⟨hfs, hbelow⟩ := isRegular_object_iff.1 hregular
        obtain ⟨hfs', habove⟩ := isRegular_object_iff.1 hregular'
        have hgs := (isRegular_object_iff.1 (hregular.of_similar hbase)).1
        have hgs' := (isRegular_object_iff.1 (hregular'.of_similar htop)).1
        rw [overlay_object, overlay_object]
        refine (similar_object_iff (nodup_keys_overlayFields hfs fs')
          (nodup_keys_overlayFields hgs gs')).2 fun key => ?_
        rw [get?_overlayFields fs hfs', get?_overlayFields gs hgs']
        refine similar_mergeAt_of_overlay (similar_get? hbase hfs key)
          (similar_get? htop hfs' key) fun v w v' w' hv hw hsimilar hsimilar' => ?_
        exact ih (key, v) (Table.mem_of_get? hv) hsimilar hsimilar' (hbelow key v hv)
          (habove key w hw)
      · have hkind' : base'.kind ≠ top'.kind := by rwa [← hbase.kind_eq, ← htop.kind_eq]
        rwa [overlay_eq_top (.inr hkind), overlay_eq_top (.inr hkind')]

end Operations

/-! ## All operations -/

/-- On values that differ in the order of fields at most, reading, writing, stripping and merging
give values that differ in the order of fields at most, or nothing on both sides. -/
theorem similar_operations {v v' x x' : Value} {a a' b b' : Option Value}
    (hdistinct : v.HasDistinctKeys) (ha : ∀ u ∈ a, u.HasDistinctKeys)
    (hb : ∀ u ∈ b, u.HasDistinctKeys) (hv : Similar v v') (hx : Similar x x')
    (hbase : SimilarOption a a') (htop : SimilarOption b b') (p : Path)
    (patterns joining : List Path) (preferArrays : Bool) :
    SimilarOption (v.get? p) (v'.get? p) ∧
    Similar (set preferArrays (some v) p x) (set preferArrays (some v') p x') ∧
    SimilarOption (strip patterns v) (strip patterns v') ∧
    SimilarOption (merge joining a b) (merge joining a' b') := by
  simp only [← isRegular_true_iff] at hdistinct ha hb
  have hwrite : ∀ u ∈ some v, IsRegular (fun _ => True) u := by
    rintro u ⟨⟩
    exact hdistinct
  refine ⟨hv.get? hdistinct p, similar_set preferArrays (.some hv) hwrite p hx,
    hv.strip hdistinct patterns, ?_⟩
  exact similar_mergeAt_of_overlay hbase htop fun u w u' w' hu hw hsimilar hsimilar' =>
    hsimilar.overlay hsimilar' (ha u hu) (hb w hw)

/-- Two fields in either order. -/
theorem similar_swap {key key' : String} {v w v' w' : Value} (hv : Similar v v')
    (hw : Similar w w') :
    Similar (object [(key, v), (key', w)]) (object [(key', w'), (key, v')]) := by
  have hsecond : SimilarFields [(key', w)] ([] ++ (key', w') :: []) := .cons hw .nil
  have hboth : SimilarFields [(key, v), (key', w)] ([(key', w')] ++ (key, v') :: []) :=
    .cons hv hsecond
  exact .object hboth

/-- Two orders of the fields of a document, a new value and an overlay. -/
theorem similar_operations_reordered :
    let v := object [("a", object [("b", bool true), ("c", null)]), ("d", array [string "e"])]
    let v' := object [("d", array [string "e"]), ("a", object [("c", null), ("b", bool true)])]
    let x := object [("f", null), ("g", bool false)]
    let x' := object [("g", bool false), ("f", null)]
    let p : Path := [.key "d", .index 2]
    let patterns : List Path := [[.wildcard, .key "c"]]
    v.HasDistinctKeys ∧ Similar v v' ∧ Similar x x' ∧
      SimilarOption (v.get? p) (v'.get? p) ∧
      Similar (set true (some v) p x) (set true (some v') p x') ∧
      SimilarOption (strip patterns v) (strip patterns v') ∧
      SimilarOption (merge [] (some v) (some x)) (merge [] (some v') (some x')) ∧
      strip patterns v' =
        some (object [("d", array [string "e"]), ("a", object [("b", bool true)])]) := by
  intro v v' x x' p patterns
  have hv : v.HasDistinctKeys := by
    simp [v, HasDistinctKeys, HaveDistinctKeys, FieldsHaveDistinctKeys, Table.keys]
  have hx : x.HasDistinctKeys := by simp [x, HasDistinctKeys, FieldsHaveDistinctKeys, Table.keys]
  have hsimilar : Similar v v' :=
    similar_swap (similar_swap (.bool true) .null) (.array (.cons (.string "e") .nil))
  have hsimilar' : Similar x x' := similar_swap .null (.bool false)
  have hbase : ∀ u ∈ some v, u.HasDistinctKeys := by
    rintro u ⟨⟩
    exact hv
  have htop : ∀ u ∈ some x, u.HasDistinctKeys := by
    rintro u ⟨⟩
    exact hx
  obtain ⟨hget, hset, hstrip, hmerge⟩ := similar_operations hv hbase htop hsimilar hsimilar'
    (.some hsimilar) (.some hsimilar') p patterns [] true
  exact ⟨hv, hsimilar, hsimilar', hget, hset, hstrip, hmerge, rfl⟩

end Value

end DocPath

import DocPath.Value.Shape
import DocPath.Proofs.Value.MergePlace
import DocPath.Proofs.Value.Write

/-!
# Reading a merge

A merge of objects reads at each segment the merge of what the two sides read there, one place
further down. So a path that meets nothing but objects reads the merge of its two readings. Any
other path leaves the objects at some point, and where no arrays are joined it reads from there on
what the top reads, or what the base reads where the top has nothing.
-/

namespace DocPath.Value

variable {joining : List Path} {path : Path}

/-! ## One segment -/

/-- Objects, as far as they are there, read at a segment the merge of their two children. -/
theorem child?_mergeAt (joining : List Path) (path : Path) {base top : Option Value}
    (hbase : ∀ v ∈ base, ∃ fields, v = object fields)
    (htop : ∀ v ∈ top, ∃ above, v = object above) (hdistinct : ∀ v ∈ top, v.HasDistinctKeys)
    (s : Segment) :
    (mergeAt joining path base top).bind (·.child? s) =
      mergeAt joining (path ++ [s]) (base.bind (·.child? s)) (top.bind (·.child? s)) := by
  cases base with
  | none => simp
  | some base =>
      cases top with
      | none => simp
      | some top =>
          obtain ⟨fields, rfl⟩ := hbase base rfl
          obtain ⟨above, rfl⟩ := htop top rfl
          have hkeys : (Table.keys above).Nodup := (hdistinct _ rfl).1
          calc
            (mergeAt joining path (some (object fields)) (some (object above))).bind (·.child? s)
              = Table.get? (overlayFields joining path fields above) s.text := by
                rw [mergeAt_some, overlay_object]
                rfl
            _ = mergeAt joining (path ++ [.key s.text]) (Table.get? fields s.text)
                  (Table.get? above s.text) := get?_overlayFields fields hkeys s.text
            _ = mergeAt joining (path ++ [s]) (Table.get? fields s.text)
                  (Table.get? above s.text) := mergeAt_key_text s _ _

theorem HasDistinctKeys.of_child? {v w : Value} (h : v.HasDistinctKeys) {s : Segment}
    (hw : v.child? s = some w) : w.HasDistinctKeys := by
  cases v with
  | object fields => exact h.of_get? hw
  | array elements =>
      obtain ⟨i, -, hget⟩ := Option.bind_eq_some_iff.1 hw
      exact HaveDistinctKeys.of_mem h (List.mem_of_getElem? hget)
  | null | bool | number | string => cases hw

theorem hasDistinctKeys_bind_child? {v : Option Value} (h : ∀ w ∈ v, w.HasDistinctKeys)
    (s : Segment) : ∀ w ∈ v.bind (·.child? s), w.HasDistinctKeys := by
  intro w hw
  obtain ⟨u, hu, hchild⟩ := Option.bind_eq_some_iff.1 hw
  exact (h u hu).of_child? hchild

/-! ## Paths through objects -/

/-- What a path meets before its end is an object wherever it meets anything. -/
def ObjectsAlong (v : Option Value) (q : Path) : Prop :=
  ∀ r, r <+: q → r ≠ q → ∀ w ∈ v.bind (·.get? r), ∃ fields, w = object fields

theorem objectsAlong_nil (v : Option Value) : ObjectsAlong v [] := by
  intro r hr hne
  exact absurd (List.prefix_nil.1 hr) hne

theorem objectsAlong_cons {v : Option Value} {s : Segment} {q : Path} :
    ObjectsAlong v (s :: q) ↔
      (∀ w ∈ v, ∃ fields, w = object fields) ∧ ObjectsAlong (v.bind (·.child? s)) q :=
  forall_before_cons (motive := fun u => ∀ w ∈ u, ∃ fields, w = object fields)

/-- A path that meets objects only reads the merge of what it reads on the two sides. -/
theorem get?_mergeAt (joining : List Path) (path : Path) {base top : Option Value}
    (hdistinct : ∀ v ∈ top, v.HasDistinctKeys) {q : Path} (hbase : ObjectsAlong base q)
    (htop : ObjectsAlong top q) :
    (mergeAt joining path base top).bind (·.get? q) =
      mergeAt joining (path ++ q) (base.bind (·.get? q)) (top.bind (·.get? q)) := by
  induction q generalizing path base top with
  | nil =>
      rw [bind_get?_nil, bind_get?_nil, bind_get?_nil, List.append_nil]
  | cons s q ih =>
      -- Both sides are objects here, so the rest is read in the merge of their children.
      obtain ⟨hbaseFirst, hbaseRest⟩ := objectsAlong_cons.1 hbase
      obtain ⟨htopFirst, htopRest⟩ := objectsAlong_cons.1 htop
      have hchild := child?_mergeAt joining path hbaseFirst htopFirst hdistinct s
      have hrest := ih (path ++ [s]) (hasDistinctKeys_bind_child? hdistinct s) hbaseRest htopRest
      rw [bind_get?_cons, bind_get?_cons, bind_get?_cons, hchild, hrest, List.append_assoc]
      rfl

/-- A path with an index for a key, to arrays that are joined at the place of the merge. -/
theorem get?_mergeAt_index_as_key :
    let joining : List Path := [[.key "outer", .key "*", .key "1"]]
    let base := some (object [("hosts", object [("1", array [string "a"])]), ("port", null)])
    let top := some (object [("hosts", object [("0", null), ("1", array [string "b"])])])
    let q : Path := [.key "hosts", .index 1]
    (∀ v ∈ top, v.HasDistinctKeys) ∧ ObjectsAlong base q ∧ ObjectsAlong top q ∧
      (mergeAt joining [.key "outer"] base top).bind (·.get? q) =
        mergeAt joining [.key "outer", .key "hosts", .index 1] (base.bind (·.get? q))
          (top.bind (·.get? q)) ∧
      (mergeAt joining [.key "outer"] base top).bind (·.get? q) =
        some (array [string "a", string "b"]) := by
  intro joining base top q
  have hdistinct : ∀ v ∈ top, v.HasDistinctKeys := by
    simp [top, HasDistinctKeys, FieldsHaveDistinctKeys, HaveDistinctKeys, Table.keys]
  have hbase : ObjectsAlong base q := by
    refine objectsAlong_cons.2 ⟨by simp [base], objectsAlong_cons.2 ⟨?_, objectsAlong_nil _⟩⟩
    rintro w ⟨⟩
    exact ⟨_, rfl⟩
  have htop : ObjectsAlong top q := by
    refine objectsAlong_cons.2 ⟨by simp [top], objectsAlong_cons.2 ⟨?_, objectsAlong_nil _⟩⟩
    rintro w ⟨⟩
    exact ⟨_, rfl⟩
  exact ⟨hdistinct, hbase, htop, get?_mergeAt joining [.key "outer"] hdistinct hbase htop, by rfl⟩

/-! ## Paths that leave the objects -/

/-- Both sides hold arrays at a place below keys under which both hold objects. -/
inductive ArraysAt : Path → Value → Value → Prop where
  | here (elements above : List Value) : ArraysAt [] (array elements) (array above)
  | under {fields above : Table Value} {key : String} {base top : Value} {place : Path}
      (inBase : fields.get? key = some base) (inTop : above.get? key = some top)
      (arrays : ArraysAt place base top) :
      ArraysAt (.key key :: place) (object fields) (object above)

/-- No pattern accepts the place of two arrays in a merge at a path. -/
def JoinsNone (joining : List Path) (path : Path) (base top : Value) : Prop :=
  ∀ place, ArraysAt place base top → ∀ p ∈ joining, p.accepts (path ++ place) = false

theorem JoinsNone.not_any {elements above : List Value}
    (h : JoinsNone joining path (array elements) (array above)) :
    joining.any (·.accepts path) = false :=
  any_accepts_of_refused h (.here elements above)

theorem JoinsNone.under {fields above : Table Value}
    (h : JoinsNone joining path (object fields) (object above)) {key : String} {base top : Value}
    (hbase : fields.get? key = some base) (htop : above.get? key = some top) :
    JoinsNone joining (path ++ [.key key]) base top :=
  refused_below h fun _ harrays => .under hbase htop harrays

/-- What a merge reads, next to what its two sides read there: the reading of the top, that of the
base where the top has none, or a merge of both. -/
inductive Origin (joining : List Path) : (base top merged : Option Value) → Prop where
  | top {base top : Option Value} : Origin joining base top top
  | base {base : Option Value} : Origin joining base none base
  | both {path : Path} {base top : Value} :
      Origin joining (some base) (some top) (some (overlay joining path base top))

theorem origin_mergeAt (base top : Option Value) :
    Origin joining base top (mergeAt joining path base top) := by
  cases base with
  | none =>
      rw [mergeAt_none_left]
      exact .top
  | some base =>
      cases top with
      | none => exact .base
      | some top => exact .both

/-- Elements of the top stand in front, and those of the base that are behind them keep their
places. -/
theorem child?_overlay_array {elements above : List Value}
    (h : joining.any (·.accepts path) = false) (s : Segment) :
    (overlay joining path (array elements) (array above)).child? s =
      ((array above).child? s).or ((array elements).child? s) := by
  have helement (i : Nat) :
      (above ++ elements.drop above.length)[i]? = above[i]?.or elements[i]? := by
    by_cases hi : i < above.length
    · rw [List.getElem?_append_left hi, List.getElem?_eq_getElem hi, Option.some_or]
    · rw [List.getElem?_append_right (by omega), List.getElem?_drop,
        List.getElem?_eq_none (by omega : above.length ≤ i), Option.none_or]
      congr 1
      omega
  rw [overlay_array, h]
  cases hs : s.index? with
  | none => simp [child?, hs]
  | some i => simp [child?, hs, helement]

/-- A child of a merge is that of the top, or that of the base where the top has none, or the merge
of both one place further down, where no arrays are joined either. -/
theorem child?_overlay {base top : Value} (hdistinct : top.HasDistinctKeys)
    (h : JoinsNone joining path base top) (s : Segment) :
    (overlay joining path base top).child? s = top.child? s ∨
    (top.child? s = none ∧ (overlay joining path base top).child? s = base.child? s) ∨
    ((overlay joining path base top).child? s =
        mergeAt joining (path ++ [.key s.text]) (base.child? s) (top.child? s) ∧
      ∀ b ∈ base.child? s, ∀ t ∈ top.child? s, JoinsNone joining (path ++ [.key s.text]) b t) := by
  by_cases hkind : base.kind = top.kind
  · cases top with
    | array above =>
        obtain ⟨elements, rfl⟩ := exists_array_of_kind_eq hkind.symm
        rw [child?_overlay_array h.not_any]
        cases (array above).child? s with
        | none => exact .inr (.inl ⟨rfl, rfl⟩)
        | some child => exact .inl rfl
    | object above =>
        obtain ⟨fields, rfl⟩ := exists_object_of_kind_eq hkind.symm
        refine .inr (.inr ⟨?_, fun b hb t ht => h.under hb ht⟩)
        rw [overlay_object]
        exact get?_overlayFields fields hdistinct.1 s.text
    | null | bool | number | string => exact .inl (by rw [overlay_eq_top (.inl rfl)])
  · exact .inl (by rw [overlay_eq_top (.inr hkind)])

/-- Each reading of a merge that joins no arrays has its origin in the readings of the sides. -/
theorem origin_get?_mergeAt {base top : Option Value}
    (hdistinct : ∀ v ∈ top, v.HasDistinctKeys)
    (h : ∀ b ∈ base, ∀ t ∈ top, JoinsNone joining path b t) (q : Path) :
    Origin joining (base.bind (·.get? q)) (top.bind (·.get? q))
      ((mergeAt joining path base top).bind (·.get? q)) := by
  induction q generalizing path base top with
  | nil =>
      rw [bind_get?_nil, bind_get?_nil, bind_get?_nil]
      exact origin_mergeAt base top
  | cons s q ih =>
      cases base with
      | none =>
          rw [mergeAt_none_left]
          exact .top
      | some base =>
          cases top with
          | none => exact .base
          | some top =>
              have hdistinct' := hasDistinctKeys_bind_child? hdistinct s
              change Origin joining ((base.child? s).bind (·.get? q))
                ((top.child? s).bind (·.get? q))
                (((overlay joining path base top).child? s).bind (·.get? q))
              -- A child of one side is read on in that side alone, a merge of both as a merge.
              obtain hchild | ⟨hnone, hchild⟩ | ⟨hchild, hjoins⟩ :=
                child?_overlay (hdistinct top rfl) (h base rfl top rfl) s
              · rw [hchild]
                exact .top
              · rw [hchild, hnone]
                exact .base
              · rw [hchild]
                exact ih hdistinct' hjoins

/-- A scalar is never a merge of two containers. -/
theorem Origin.of_scalar {base top merged : Option Value} (h : Origin joining base top merged)
    {y : Value} (hy : y.isContainer = false) :
    (top = some y → merged = some y) ∧
    (merged = some y → top = some y ∨ top = none ∧ base = some y) := by
  cases h with
  | top => exact ⟨id, .inl⟩
  | base => exact ⟨nofun, fun hbase => .inr ⟨rfl, hbase⟩⟩
  | @both path base top =>
      constructor
      · rintro ⟨⟩
        rw [overlay_eq_top (.inl hy)]
      · intro hmerged
        have hkind : (overlay joining path base top).kind = top.kind := kind_overlay base top
        have hscalar : top.isContainer = false := by
          rw [← isContainer_of_kind_eq hkind, Option.some.inj hmerged, hy]
        rw [overlay_eq_top (.inl hscalar)] at hmerged
        exact .inl hmerged

/-- Where no arrays are joined, a scalar of the top is read in the merge, and a scalar that the
merge reads is the top's, or the base's at a path where the top has nothing. -/
theorem get?_merge_scalar (joining : List Path) {base top : Option Value}
    (hdistinct : ∀ v ∈ top, v.HasDistinctKeys)
    (h : ∀ b ∈ base, ∀ t ∈ top, JoinsNone joining [] b t) (q : Path) {y : Value}
    (hy : y.isContainer = false) :
    (top.bind (·.get? q) = some y → (merge joining base top).bind (·.get? q) = some y) ∧
    ((merge joining base top).bind (·.get? q) = some y →
      top.bind (·.get? q) = some y ∨
        top.bind (·.get? q) = none ∧ base.bind (·.get? q) = some y) :=
  (origin_get?_mergeAt hdistinct h q).of_scalar hy

/-- A null inside an element that replaces one of the base, and an element behind it. The patterns
accept a place inside the arrays and one where only the top holds an array. -/
theorem get?_merge_scalar_in_array :
    let joining : List Path := [[.key "a", .key "0"], [.key "k"]]
    let base := object [("a", array [object [("x", bool true)], bool false]), ("k", string "s")]
    let top := object [("k", array []), ("a", array [object [("y", null)]])]
    let q : Path := [.key "a", .index 0, .key "y"]
    let q' : Path := [.key "a", .key "1"]
    (∀ v ∈ some top, v.HasDistinctKeys) ∧
      (∀ b ∈ some base, ∀ t ∈ some top, JoinsNone joining [] b t) ∧
      top.get? q = some null ∧ (merge joining (some base) (some top)).bind (·.get? q) = some null ∧
      (merge joining (some base) (some top)).bind (·.get? q') = some (bool false) ∧
      top.get? q' = none ∧ base.get? q' = some (bool false) := by
  intro joining base top q q'
  have hdistinct : ∀ v ∈ some top, v.HasDistinctKeys := by
    simp [top, HasDistinctKeys, FieldsHaveDistinctKeys, HaveDistinctKeys, Table.keys]
  have hplace : ∀ place, ArraysAt place base top → place = [.key "a"] := by
    intro place harrays
    change ArraysAt place (object _) (object _) at harrays
    cases harrays with
    | @under _ _ key _ _ _ hbase htop harrays =>
        by_cases hkey : key = "a"
        · simp [Table.get?_cons, hkey] at hbase htop
          subst hkey hbase htop
          cases harrays
          rfl
        · by_cases hk : key = "k"
          · simp [Table.get?_cons, hk] at hbase htop
            subst hbase htop
            cases harrays
          · simp [Table.get?_cons, hkey, hk] at hbase
  have hjoins : ∀ b ∈ some base, ∀ t ∈ some top, JoinsNone joining [] b t := by
    rintro b ⟨⟩ t ⟨⟩ place harrays p hp
    rw [hplace place harrays]
    simp only [joining, List.mem_cons, List.not_mem_nil, or_false] at hp
    rcases hp with rfl | rfl
    · rfl
    · rfl
  have hnull : top.get? q = some null := by rfl
  have hnone : top.get? q' = none := by rfl
  have hmerged : (merge joining (some base) (some top)).bind (·.get? q') = some (bool false) := by
    rfl
  have hread := (get?_merge_scalar joining hdistinct hjoins q rfl).1 hnull
  have hbase : base.get? q' = some (bool false) := by
    rcases (get?_merge_scalar joining hdistinct hjoins q' rfl).2 hmerged with htop | ⟨-, hbase⟩
    · rw [Option.bind_some, hnone] at htop
      contradiction
    · exact hbase
  exact ⟨hdistinct, hjoins, hnull, hread, hmerged, hnone, hbase⟩

-- Joined arrays: the element of the top is read behind that of the base.
example :
    let base := some (array [bool true])
    let top := some (array [null])
    (merge [[]] base top).bind (·.get? [.index 0]) = some (bool true) ∧
      (merge [[]] base top).bind (·.get? [.index 1]) = some null := by
  exact ⟨rfl, rfl⟩

end DocPath.Value

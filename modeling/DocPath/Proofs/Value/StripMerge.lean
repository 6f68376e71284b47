import DocPath.Proofs.Value.Merge
import DocPath.Proofs.Value.Strip

/-!
# Stripping layers

Stripping a merge is merging what stripping leaves of the layers, as long as the patterns are made
of names. Under a key it is so because the key's patterns take away both layers there or keep
both; in an array because all elements have the same patterns, so that either all of them go or
none does, and the elements that stay keep their distances.
-/

namespace DocPath.Value

variable {joining patterns : List Path} {path : Path}

/-- Patterns that remove the root remove it from both layers. -/
theorem strip_overlay_of_any (h : patterns.any List.isEmpty = true) (base top : Value) :
    strip patterns (overlay joining path base top) =
      mergeAt joining path (strip patterns base) (strip patterns top) := by
  have hnone (v : Value) : strip patterns v = none := strip_eq_none_iff.2 h
  rw [hnone, hnone, hnone, mergeAt_none_right]

/-- A top that hides the base hides it when both are stripped. -/
theorem strip_overlay_of_hidden {base top : Value}
    (h : top.isContainer = false ∨ base.kind ≠ top.kind) :
    strip patterns (overlay joining path base top) =
      mergeAt joining path (strip patterns base) (strip patterns top) := by
  cases hany : patterns.any List.isEmpty with
  | true => exact strip_overlay_of_any hany base top
  | false =>
      obtain ⟨base', hbase⟩ := exists_strip hany base
      obtain ⟨top', htop⟩ := exists_strip hany top
      have hhidden : top'.isContainer = false ∨ base'.kind ≠ top'.kind := by
        rwa [kind_of_strip hbase, kind_of_strip htop, isContainer_of_kind_eq (kind_of_strip htop)]
      rw [overlay_eq_top h, hbase, htop, mergeAt_some, overlay_eq_top hhidden]

/-! ## Elements -/

/-- Elements behind a place are those behind the same number of elements that stay. -/
theorem filterMap_strip_drop (patterns : List Path) (elements above : List Value) :
    (elements.drop above.length).filterMap (strip patterns) =
      (elements.filterMap (strip patterns)).drop (above.filterMap (strip patterns)).length := by
  cases hany : patterns.any List.isEmpty with
  | true =>
      have hnone (v : Value) : strip patterns v = none := strip_eq_none_iff.2 hany
      have hempty (l : List Value) : l.filterMap (strip patterns) = [] :=
        List.filterMap_eq_nil_iff.2 fun v _ => hnone v
      simp only [hempty, List.drop_nil]
  | false =>
      choose f hf using exists_strip hany
      have hmap : strip patterns = some ∘ f := funext hf
      rw [hmap, List.filterMap_eq_map, List.map_drop, List.length_map]

theorem strip_overlay_array (h : ∀ p ∈ patterns, p.NamesOnly) (elements above : List Value) :
    strip patterns (overlay joining path (array elements) (array above)) =
      mergeAt joining path (strip patterns (array elements)) (strip patterns (array above)) := by
  cases hany : patterns.any List.isEmpty with
  | true => exact strip_overlay_of_any hany _ _
  | false =>
      rw [strip_array hany, strip_array hany, mergeAt_some, overlay_array, overlay_array]
      simp only [stripElements_of_namesOnly h]
      split
      · rw [strip_array hany, stripElements_of_namesOnly h, List.filterMap_append]
      · rw [strip_array hany, stripElements_of_namesOnly h, List.filterMap_append,
          filterMap_strip_drop]

/-! ## Fields -/

theorem stripFields_overlayFields {above : Table Value}
    (ih : ∀ e ∈ above, ∀ {patterns path}, (∀ p ∈ patterns, p.NamesOnly) → ∀ base,
      strip patterns (overlay joining path base e.2) =
        mergeAt joining path (strip patterns base) (strip patterns e.2))
    (h : ∀ p ∈ patterns, p.NamesOnly) (fields : Table Value) :
    stripFields patterns (overlayFields joining path fields above) =
      overlayFields joining path (stripFields patterns fields) (stripFields patterns above) := by
  induction above generalizing fields with
  | nil => simp [overlayFields, stripFields]
  | cons e above ihAbove =>
      obtain ⟨key, top⟩ := e
      obtain ⟨merged, hmerged⟩ :=
        exists_mergeAt joining (path ++ [.key key]) (fields.get? key) top
      have hnames : ∀ p ∈ residual key patterns, p.NamesOnly := namesOnly_residual h key
      have hstep : strip (residual key patterns) merged =
          mergeAt joining (path ++ [.key key]) (Table.get? (stripFields patterns fields) key)
            (strip (residual key patterns) top) := by
        rw [get?_stripFields]
        cases hget : fields.get? key with
        | none =>
            rw [hget, mergeAt_none_left] at hmerged
            cases hmerged
            rw [Option.bind_none, mergeAt_none_left]
        | some base =>
            rw [hget, mergeAt_some] at hmerged
            cases hmerged
            exact ih (key, top) List.mem_cons_self hnames base
      rw [overlayFields_cons hmerged, ihAbove fun e he => ih e (List.mem_cons_of_mem _ he)]
      cases htop : strip (residual key patterns) top with
      | none =>
          rw [stripFields_put_of_none (strip_eq_none_of htop merged), stripFields, htop]
      | some kept =>
          obtain ⟨merged', hmerged'⟩ := exists_mergeAt joining (path ++ [.key key])
            (Table.get? (stripFields patterns fields) key) kept
          rw [htop, hmerged'] at hstep
          rw [stripFields_put_of_some hstep, stripFields, htop]
          exact (overlayFields_cons hmerged' _).symm

/-! ## Layers -/

theorem strip_overlay (h : ∀ p ∈ patterns, p.NamesOnly) (base top : Value) :
    strip patterns (overlay joining path base top) =
      mergeAt joining path (strip patterns base) (strip patterns top) := by
  induction top using childInduction generalizing patterns path base with
  | scalar top hscalar => exact strip_overlay_of_hidden (.inl hscalar)
  | array above _ =>
      by_cases hkind : (array above).kind = base.kind
      · obtain ⟨elements, rfl⟩ := exists_array_of_kind_eq hkind
        exact strip_overlay_array h elements above
      · exact strip_overlay_of_hidden (.inr (Ne.symm hkind))
  | object above ih =>
      by_cases hkind : (object above).kind = base.kind
      · obtain ⟨fields, rfl⟩ := exists_object_of_kind_eq hkind
        cases hany : patterns.any List.isEmpty with
        | true => exact strip_overlay_of_any hany _ _
        | false =>
            rw [strip_object hany, strip_object hany, mergeAt_some, overlay_object,
              overlay_object, strip_object hany, stripFields_overlayFields _ h]
            exact fun e he _ _ hnames base => ih e he hnames base
      · exact strip_overlay_of_hidden (.inr (Ne.symm hkind))

/-- Stripping a merge by names is merging the stripped layers, the order of fields included. -/
theorem strip_merge (joining : List Path) {patterns : List Path}
    (h : ∀ p ∈ patterns, p.NamesOnly) (base top : Option Value) :
    (merge joining base top).bind (strip patterns) =
      merge joining (base.bind (strip patterns)) (top.bind (strip patterns)) := by
  unfold merge
  cases base with
  | none => simp
  | some base =>
      cases top with
      | none => simp
      | some top => exact strip_overlay h base top

/-- Fields of joined elements, under a wildcard, and a field of both layers go either way. -/
theorem strip_merge_passwords :
    let joining : List Path := [[.key "users"]]
    let patterns : List Path := [[.key "users", .key "*", .key "pw"], [.key "debug"]]
    let base := some (object [("debug", bool true),
      ("users", array [object [("name", string "a"), ("pw", null)]])])
    let top := some (object [("port", null), ("users", array [object [("pw", null)], string "b"]),
      ("debug", object [])])
    (∀ p ∈ patterns, p.NamesOnly) ∧
      (merge joining base top).bind (strip patterns) =
        merge joining (base.bind (strip patterns)) (top.bind (strip patterns)) ∧
      (merge joining base top).bind (strip patterns) =
        some (object [("users", array [object [("name", string "a")], object [], string "b"]),
          ("port", null)]) := by
  intro joining patterns base top
  have hnames : ∀ p ∈ patterns, p.NamesOnly := by
    simp [patterns, Path.NamesOnly, Segment.IsName, Numeral.isDigits]
  exact ⟨hnames, strip_merge joining hnames base top, by rfl⟩

-- A number tells elements apart: where arrays are joined, those of the top change their places.
example :
    let joining : List Path := [[]]
    let patterns : List Path := [[.index 0]]
    let base := some (array [bool true])
    let top := some (array [bool false])
    (merge joining base top).bind (strip patterns) = some (array [bool false]) ∧
      merge joining (base.bind (strip patterns)) (top.bind (strip patterns)) = some (array []) := by
  exact ⟨rfl, rfl⟩

end DocPath.Value

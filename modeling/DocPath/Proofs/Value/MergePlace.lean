import DocPath.Proofs.Path.Pattern
import DocPath.Proofs.Value.Induction
import DocPath.Proofs.Value.Merge

/-!
# The place of a merge

Where a merge takes place counts only through the patterns that accept a place below, and of those
only the ends count. So a merge at a place is the merge of two whole documents whose joining
patterns are these ends.
-/

namespace DocPath.Value

variable {joining : List Path} {path : Path}

theorem overlayFields_congr {joining' : List Path} {path' : Path} {above : Table Value}
    (h : ∀ e ∈ above, ∀ base,
      overlay joining (path ++ [.key e.1]) base e.2 =
        overlay joining' (path' ++ [.key e.1]) base e.2)
    (fields : Table Value) :
    overlayFields joining path fields above = overlayFields joining' path' fields above := by
  induction above generalizing fields with
  | nil => simp only [overlayFields]
  | cons e above ih =>
      obtain ⟨key, top⟩ := e
      obtain ⟨merged, hmerged⟩ :=
        exists_mergeAt joining (path ++ [.key key]) (fields.get? key) top
      have hmerged' :
          mergeAt joining' (path' ++ [.key key]) (fields.get? key) (some top) = some merged := by
        rw [← hmerged]
        cases fields.get? key with
        | none => simp
        | some base => rw [mergeAt_some, mergeAt_some, h (key, top) List.mem_cons_self base]
      rw [overlayFields_cons hmerged, overlayFields_cons hmerged']
      exact ih (fun e he => h e (List.mem_cons_of_mem _ he)) _

/-- The place of a merge counts only through what it leaves of the joining patterns. -/
theorem overlay_congr {joining' : List Path} {path' : Path}
    (h : below joining path = below joining' path') (base top : Value) :
    overlay joining path base top = overlay joining' path' base top := by
  induction top using childInduction generalizing path path' base with
  | scalar top hscalar => rw [overlay_eq_top (.inl hscalar), overlay_eq_top (.inl hscalar)]
  | array above _ =>
      by_cases hkind : base.kind = (array above).kind
      · obtain ⟨elements, rfl⟩ := exists_array_of_kind_eq hkind.symm
        have hjoins : joining.any (·.accepts path) = joining'.any (·.accepts path') := by
          rw [← any_isEmpty_below, ← any_isEmpty_below, h]
        rw [overlay_array, overlay_array, hjoins]
      · rw [overlay_eq_top (.inr hkind), overlay_eq_top (.inr hkind)]
  | object above ih =>
      by_cases hkind : base.kind = (object above).kind
      · obtain ⟨fields, rfl⟩ := exists_object_of_kind_eq hkind.symm
        rw [overlay_object, overlay_object]
        -- Below a key the two places leave the same of the patterns again.
        refine congrArg object (overlayFields_congr (fun e he base => ih e he ?_ base) fields)
        rw [below_append, below_append, h]
      · rw [overlay_eq_top (.inr hkind), overlay_eq_top (.inr hkind)]

theorem mergeAt_congr {joining' : List Path} {path' : Path}
    (h : below joining path = below joining' path') (base top : Option Value) :
    mergeAt joining path base top = mergeAt joining' path' base top := by
  cases base with
  | none => simp
  | some base =>
      cases top with
      | none => simp
      | some top => rw [mergeAt_some, mergeAt_some, overlay_congr h]

/-- A merge under a segment is a merge under the key that the segment stands for. -/
theorem mergeAt_key_text (s : Segment) (base top : Option Value) :
    mergeAt joining (path ++ [.key s.text]) base top = mergeAt joining (path ++ [s]) base top := by
  apply mergeAt_congr
  rw [← residual_below, ← residual_below]
  rfl

/-! ## Merges at a place -/

/-- Going down in one merge is starting further down with what is left of the patterns. -/
theorem mergeAt_append (joining : List Path) (path path' : Path) (base top : Option Value) :
    mergeAt joining (path ++ path') base top = mergeAt (below joining path) path' base top :=
  mergeAt_congr (below_append joining path path') base top

/-- A merge at a place is the merge of documents under the ends of those patterns that are long
enough and start by accepting the place. -/
theorem mergeAt_eq_merge (joining : List Path) (place : Path) (base top : Option Value) :
    mergeAt joining place base top =
      merge
        ((joining.filter fun p =>
            place.length ≤ p.length ∧ Path.accepts (p.take place.length) place = true).map
          (·.drop place.length))
        base top := by
  have hplace := mergeAt_append joining place [] base top
  rw [List.append_nil, below_eq_map_drop] at hplace
  exact hplace

/-- A pattern that starts by accepting the place joins arrays below it, one that does not joins
none. -/
theorem mergeAt_eq_merge_below :
    let base := some (object [("x", array [null]), ("y", array [null])])
    let top := some (object [("x", array [bool true]), ("y", array [bool true])])
    let merged := some (object [("x", array [null, bool true]), ("y", array [bool true])])
    mergeAt [[.key "outer", .key "*", .key "x"], [.key "y"]] [.key "outer", .index 0] base top =
        merged ∧
      merge [[.key "x"]] base top = merged := by
  intro base top merged
  have hmerge : merge [[.key "x"]] base top = merged := rfl
  refine ⟨?_, hmerge⟩
  rw [mergeAt_eq_merge]
  exact hmerge

end DocPath.Value

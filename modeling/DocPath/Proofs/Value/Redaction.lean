import Mathlib.Data.List.Basic
import DocPath.Value.Redaction
import DocPath.Proofs.Path.Pattern
import DocPath.Proofs.Value.Strip

/-!
# Stripping is redaction

Stripping never sees a whole path: it hands down what is left of the patterns. Those rests are
the rests below the path from the root, at every depth, so a place goes exactly if a pattern
accepts its path, whatever went before it in its array.
-/

namespace DocPath

theorem Segment.text_element (i : Nat) : (element i).text = decimal i := by
  unfold element
  split
  · rename_i h
    rw [text, UInt64.toNat_ofNat_of_lt' h]
  · rfl

namespace Value

theorem redactElements_eq_filterMap (patterns : List Path) (path : Path) (i : Nat)
    (elements : List Value) :
    redactElements patterns path i elements =
      (elements.zipIdx i).filterMap fun e => redact patterns (path ++ [.element e.2]) e.1 := by
  induction elements generalizing i with
  | nil => rfl
  | cons v elements ih =>
      rw [redactElements, List.zipIdx_cons, List.filterMap_cons, ih]
      cases redact patterns (path ++ [.element i]) v <;> rfl

theorem redactFields_eq_filterMap (patterns : List Path) (path : Path)
    (fields : List (String × Value)) :
    redactFields patterns path fields =
      fields.filterMap fun e =>
        (redact patterns (path ++ [.key e.1]) e.2).map fun w => (e.1, w) := by
  induction fields with
  | nil => rfl
  | cons e fields ih =>
      rw [redactFields, List.filterMap_cons, ih]
      cases redact patterns (path ++ [.key e.1]) e.2 <;> rfl

/-- At a path, stripping with what is left of the patterns below it is redacting with the
patterns. -/
theorem strip_below (patterns : List Path) (path : Path) (v : Value) :
    strip (below patterns path) v = redact patterns path v := by
  induction v using childInduction generalizing path with
  | scalar v hscalar =>
      unfold redact
      rw [strip_eq, any_isEmpty_below]
      cases v with
      | array => contradiction
      | object => contradiction
      | null | bool | number | string => rfl
  | array elements ih =>
      have hkept : stripElements (below patterns path) 0 elements =
          redactElements patterns path 0 elements := by
        rw [stripElements_eq_filterMap, redactElements_eq_filterMap]
        apply List.filterMap_congr
        rintro ⟨v, i⟩ hmem
        rw [← Segment.text_element i, residual_below]
        exact ih v (List.fst_mem_of_mem_zipIdx hmem) _
      unfold redact
      rw [strip_eq, any_isEmpty_below]
      simp only [hkept]
  | object fields ih =>
      have hkept : stripFields (below patterns path) fields =
          redactFields patterns path fields := by
        rw [stripFields_eq_filterMap, redactFields_eq_filterMap]
        apply List.filterMap_congr
        rintro ⟨key, v⟩ hmem
        have hresidual : residual key (below patterns path) = below patterns (path ++ [.key key]) :=
          residual_below patterns path (.key key)
        rw [hresidual, ih (key, v) hmem]
      unfold redact
      rw [strip_eq, any_isEmpty_below]
      simp only [hkept]

/-- Stripping removes exactly the places whose whole path a pattern accepts, and gives nothing
exactly if that is so of the root. -/
theorem strip_eq_redact (patterns : List Path) (v : Value) :
    strip patterns v = redact patterns [] v ∧
      (strip patterns v = none ↔ ∃ p ∈ patterns, p.accepts [] = true) := by
  have hroot := any_isEmpty_below patterns []
  rw [below_nil] at hroot
  constructor
  · rw [← strip_below, below_nil]
  · rw [strip_eq_none_iff, hroot, List.any_eq_true]

-- Both elements are removed by the places that they had, and so is the field of the third.
example :
    strip [[.index 0], [.key "1"], [.index 2, .key "pw"]]
        (array [null, bool true, object [("pw", null), ("name", null)], bool false]) =
      some (array [object [("name", null)], bool false]) := by
  rfl

end Value

end DocPath

import DocPath.Proofs.Value.Redaction

/-!
# Stripping in passes

Lists of patterns strip alike when they accept the same paths, so neither their order nor a
repetition counts. A pass that follows another one meets arrays that have closed up. Patterns made
of names cannot tell, since they leave the same of an element wherever it stands: such a pass takes
away what its patterns would have taken away together with those of the pass before.
-/

namespace DocPath.Value

variable {patterns patterns' names : List Path}

/-! ## The paths that patterns accept -/

/-- What redaction removes hangs on the paths that some pattern accepts. -/
theorem redact_congr
    (h : ∀ path : Path, patterns.any (·.accepts path) = patterns'.any (·.accepts path))
    (path : Path) (v : Value) : redact patterns path v = redact patterns' path v := by
  induction v using childInduction generalizing path with
  | scalar v hscalar =>
      unfold redact
      rw [h]
      cases v with
      | array | object => contradiction
      | null | bool | number | string => rfl
  | array elements ih =>
      have hkept :
          redactElements patterns path 0 elements = redactElements patterns' path 0 elements := by
        rw [redactElements_eq_filterMap, redactElements_eq_filterMap]
        apply List.filterMap_congr
        rintro ⟨v, i⟩ hmem
        exact ih v (List.fst_mem_of_mem_zipIdx hmem) _
      unfold redact
      rw [h]
      simp only [hkept]
  | object fields ih =>
      have hkept : redactFields patterns path fields = redactFields patterns' path fields := by
        rw [redactFields_eq_filterMap, redactFields_eq_filterMap]
        apply List.filterMap_congr
        rintro ⟨key, v⟩ hmem
        rw [ih (key, v) hmem]
      unfold redact
      rw [h]
      simp only [hkept]

/-- Patterns that accept the same paths strip alike. -/
theorem strip_congr
    (h : ∀ path : Path, patterns.any (·.accepts path) = patterns'.any (·.accepts path))
    (v : Value) : strip patterns v = strip patterns' v := by
  rw [← below_nil patterns, strip_below, redact_congr h, ← strip_below, below_nil]

/-- The order of patterns does not count, nor does a pattern that is there twice. -/
theorem strip_congr_of_mem_iff (h : ∀ p, p ∈ patterns ↔ p ∈ patterns') (v : Value) :
    strip patterns v = strip patterns' v := by
  apply strip_congr
  intro path
  rw [Bool.eq_iff_iff, List.any_eq_true, List.any_eq_true]
  simp only [h]

/-! ## Two passes -/

theorem stripElements_append {elements : List Value}
    (ih : ∀ v ∈ elements, ∀ {patterns names}, (∀ p ∈ names, p.NamesOnly) →
      strip (patterns ++ names) v = (strip patterns v).bind (strip names))
    (h : ∀ p ∈ names, p.NamesOnly) :
    stripElements (patterns ++ names) 0 elements =
      stripElements names 0 (stripElements patterns 0 elements) := by
  calc
    stripElements (patterns ++ names) 0 elements
      = (elements.zipIdx 0).filterMap fun e =>
          strip (residual (decimal e.2) (patterns ++ names)) e.1 :=
        stripElements_eq_filterMap _ 0 elements
    _ = (elements.zipIdx 0).filterMap fun e =>
          (strip (residual (decimal e.2) patterns) e.1).bind
            (strip (residual (decimal 0) names)) := by
        apply List.filterMap_congr
        rintro ⟨v, i⟩ hmem
        -- The second pass leaves of the element what it would leave at the front of the array.
        rw [residual_append, residual_decimal h i 0]
        exact ih v (List.fst_mem_of_mem_zipIdx hmem) (namesOnly_residual h _)
    _ = (stripElements patterns 0 elements).filterMap (strip (residual (decimal 0) names)) := by
        rw [stripElements_eq_filterMap, List.filterMap_filterMap]
    _ = stripElements names 0 (stripElements patterns 0 elements) :=
        (stripElements_of_namesOnly h _).symm

theorem stripFields_append_patterns {fields : Table Value}
    (ih : ∀ e ∈ fields, ∀ {patterns names}, (∀ p ∈ names, p.NamesOnly) →
      strip (patterns ++ names) e.2 = (strip patterns e.2).bind (strip names))
    (h : ∀ p ∈ names, p.NamesOnly) :
    stripFields (patterns ++ names) fields = stripFields names (stripFields patterns fields) := by
  rw [stripFields_eq_filterMap, stripFields_eq_filterMap names, stripFields_eq_filterMap,
    List.filterMap_filterMap]
  apply List.filterMap_congr
  rintro ⟨key, v⟩ hmem
  rw [residual_append, ih (key, v) hmem (namesOnly_residual h key)]
  cases strip (residual key patterns) v <;> rfl

/-- Patterns that remove the root remove it in the one pass or the other. -/
theorem strip_append_of_any (h : (patterns ++ names).any List.isEmpty = true) (v : Value) :
    strip (patterns ++ names) v = (strip patterns v).bind (strip names) := by
  rw [strip_eq_none_iff.2 h, eq_comm, Option.bind_eq_none_iff]
  intro w hw
  rw [List.any_append, any_isEmpty_of_strip hw, Bool.false_or] at h
  exact strip_eq_none_iff.2 h

theorem any_isEmpty_of_append (h : (patterns ++ names).any List.isEmpty = false) :
    patterns.any List.isEmpty = false ∧ names.any List.isEmpty = false := by
  rwa [List.any_append, Bool.or_eq_false_iff] at h

/-- A pass with patterns made of names removes what they remove together with the patterns of the
pass before. -/
theorem strip_append (h : ∀ p ∈ names, p.NamesOnly) (v : Value) :
    strip (patterns ++ names) v = (strip patterns v).bind (strip names) := by
  induction v using childInduction generalizing patterns names with
  | scalar v hscalar =>
      cases hany : (patterns ++ names).any List.isEmpty with
      | true => exact strip_append_of_any hany v
      | false =>
          obtain ⟨hpatterns, hnames⟩ := any_isEmpty_of_append hany
          rw [strip_scalar hany hscalar, strip_scalar hpatterns hscalar, Option.bind_some,
            strip_scalar hnames hscalar]
  | array elements ih =>
      cases hany : (patterns ++ names).any List.isEmpty with
      | true => exact strip_append_of_any hany _
      | false =>
          obtain ⟨hpatterns, hnames⟩ := any_isEmpty_of_append hany
          rw [strip_array hany, strip_array hpatterns, Option.bind_some, strip_array hnames,
            stripElements_append ih h]
  | object fields ih =>
      cases hany : (patterns ++ names).any List.isEmpty with
      | true => exact strip_append_of_any hany _
      | false =>
          obtain ⟨hpatterns, hnames⟩ := any_isEmpty_of_append hany
          rw [strip_object hany, strip_object hpatterns, Option.bind_some, strip_object hnames,
            stripFields_append_patterns ih h]

/-- A pass with patterns made of names and the pass before it can be made as one; which patterns
are in a list counts, not in which order or how often; and a pass with patterns made of names
leaves nothing for a repetition of it. -/
theorem strip_passes (v : Value) (patterns : List Path) {names : List Path}
    (h : ∀ p ∈ names, p.NamesOnly) :
    strip (patterns ++ names) v = (strip patterns v).bind (strip names) ∧
      (∀ patterns', (∀ p, p ∈ patterns' ↔ p ∈ patterns) →
        strip patterns' v = strip patterns v) ∧
      (strip names v).bind (strip names) = strip names v := by
  refine ⟨strip_append h v, fun patterns' hsame => strip_congr_of_mem_iff hsame v, ?_⟩
  calc
    (strip names v).bind (strip names) = strip (names ++ names) v := (strip_append h v).symm
    _ = strip names v := strip_congr_of_mem_iff (by simp) v

/-- The first pass removes an element and renumbers those behind it, from which the second one
removes a field; one pass does the same, with the patterns of the first one in any order. -/
theorem strip_passes_renumbered :
    let patterns : List Path := [[.index 0], [.key "2"]]
    let patterns' : List Path := [[.key "2"], [.index 0], [.key "2"]]
    let names : List Path := [[.key "*", .key "pw"]]
    let v := array [null, object [("pw", string "a"), ("name", null)], bool true,
      object [("pw", string "b")]]
    (∀ p ∈ names, p.NamesOnly) ∧ (∀ p, p ∈ patterns' ↔ p ∈ patterns) ∧
      strip (patterns ++ names) v = (strip patterns v).bind (strip names) ∧
      strip patterns' v = strip patterns v ∧
      (strip names v).bind (strip names) = strip names v ∧
      strip (patterns ++ names) v = some (array [object [("name", null)], object []]) := by
  intro patterns patterns' names v
  have hnames : ∀ p ∈ names, p.NamesOnly := by
    simp [names, Path.NamesOnly, Segment.IsName, Numeral.isDigits]
  have hsame : ∀ p, p ∈ patterns' ↔ p ∈ patterns := by
    intro p
    simp only [patterns, patterns', List.mem_cons, List.not_mem_nil, or_false]
    tauto
  obtain ⟨honce, horder, hagain⟩ := strip_passes v patterns hnames
  exact ⟨hnames, hsame, honce, horder patterns' hsame, hagain, by rfl⟩

-- An index in the second pass removes an element that the first pass has moved to its place.
example :
    let p : Path := [.index 0]
    let v := array [string "a", string "b"]
    strip [p, p] v = some (array [string "b"]) ∧
      (strip [p] v).bind (strip [p]) = some (array []) := by
  exact ⟨rfl, rfl⟩

end DocPath.Value

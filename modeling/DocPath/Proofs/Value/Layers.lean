import DocPath.Value.Shape
import DocPath.Proofs.Value.Induction
import DocPath.Proofs.Value.Merge

/-!
# Three layers

Three layers merge key by key, and it does not matter which two are merged first, unless a layer
hides a container from another of the same kind above it. Where the three are not all containers
of one kind, at most two of them are merged either way.
-/

namespace DocPath.Value

variable {joining : List Path} {path : Path}

/-- A value of another kind stands between two containers of one kind, at the root or below keys
under which all three layers hold objects. -/
inductive Interposed : Value → Value → Value → Prop where
  | here {low mid high : Value} (container : low.isContainer = true)
      (same : high.kind = low.kind) (other : mid.kind ≠ low.kind) : Interposed low mid high
  | under {lows mids highs : Table Value} {key : String} {low mid high : Value}
      (inLow : lows.get? key = some low) (inMid : mids.get? key = some mid)
      (inHigh : highs.get? key = some high) (interposed : Interposed low mid high) :
      Interposed (object lows) (object mids) (object highs)

theorem not_interposed_array (xs ys zs : List Value) :
    ¬Interposed (array xs) (array ys) (array zs) := by
  rintro ⟨-, -, other⟩
  exact other rfl

theorem interposed_object_iff {lows mids highs : Table Value} :
    Interposed (object lows) (object mids) (object highs) ↔
      ∃ key, ∃ low ∈ lows.get? key, ∃ mid ∈ mids.get? key, ∃ high ∈ highs.get? key,
        Interposed low mid high := by
  constructor
  · rintro (⟨-, -, other⟩ | ⟨inLow, inMid, inHigh, interposed⟩)
    · exact (other rfl).elim
    · exact ⟨_, _, inLow, _, inMid, _, inHigh, interposed⟩
  · rintro ⟨key, low, inLow, mid, inMid, high, inHigh, interposed⟩
    exact .under inLow inMid inHigh interposed

/-- Layers that may be missing follow suit. -/
theorem mergeAt_assoc_of_overlay {a b c : Option Value}
    (h : ∀ x ∈ a, ∀ y ∈ b, ∀ z ∈ c,
      overlay joining path (overlay joining path x y) z =
        overlay joining path x (overlay joining path y z)) :
    mergeAt joining path (mergeAt joining path a b) c =
      mergeAt joining path a (mergeAt joining path b c) := by
  cases a with
  | none => simp
  | some x =>
      cases b with
      | none => simp
      | some y =>
          cases c with
          | none => simp
          | some z =>
              simp only [mergeAt_some]
              rw [h x rfl y rfl z rfl]

theorem overlay_array_assoc (xs ys zs : List Value) :
    overlay joining path (overlay joining path (array xs) (array ys)) (array zs) =
      overlay joining path (array xs) (overlay joining path (array ys) (array zs)) := by
  by_cases hjoins : joining.any (·.accepts path) = true
  · simp only [overlay_array, if_pos hjoins, List.append_assoc]
  · simp only [overlay_array, if_neg hjoins]
    have hlength : ys.length + (zs.length - ys.length) = (zs ++ ys.drop zs.length).length := by
      rw [List.length_append, List.length_drop]
      omega
    rw [List.drop_append, List.drop_drop, hlength, List.append_assoc]

/-- The keys of three layers: those of the lowest first, whichever two are merged first. -/
theorem keys_overlayFields_assoc {low mid high : Table Value} (hmid : mid.keys.Nodup)
    (hhigh : high.keys.Nodup) :
    (overlayFields joining path (overlayFields joining path low mid) high).keys =
      (overlayFields joining path low (overlayFields joining path mid high)).keys := by
  have hinner : (overlayFields joining path mid high).keys.Nodup :=
    nodup_keys_overlayFields hmid high
  rw [keys_overlayFields _ hhigh, keys_overlayFields _ hmid, keys_overlayFields _ hinner,
    keys_overlayFields _ hhigh, List.filter_append, List.filter_filter, List.append_assoc]
  congr 2
  apply List.filter_congr
  intro key _
  by_cases hkey : key ∈ low.keys <;> simp [hkey]

/-- Objects merge key by key, so they merge in either order if their fields do. -/
theorem overlayFields_assoc {low mid high : Table Value} (hlow : low.keys.Nodup)
    (hmid : mid.keys.Nodup) (hhigh : high.keys.Nodup)
    (h : ∀ key path, ∀ x ∈ low.get? key, ∀ y ∈ mid.get? key, ∀ z ∈ high.get? key,
      overlay joining path (overlay joining path x y) z =
        overlay joining path x (overlay joining path y z)) :
    overlayFields joining path (overlayFields joining path low mid) high =
      overlayFields joining path low (overlayFields joining path mid high) := by
  have hinner : (overlayFields joining path mid high).keys.Nodup :=
    nodup_keys_overlayFields hmid high
  apply Table.ext_get? (keys_overlayFields_assoc hmid hhigh)
  · exact nodup_keys_overlayFields (nodup_keys_overlayFields hlow mid) high
  · intro key
    rw [get?_overlayFields _ hhigh, get?_overlayFields _ hmid, get?_overlayFields _ hinner,
      get?_overlayFields _ hhigh]
    exact mergeAt_assoc_of_overlay (h key _)

/-- One of two neighbouring layers hides the layer below it, being a scalar or of another kind. -/
def Hides (low mid high : Value) : Prop :=
  high.isContainer = false ∨ mid.kind ≠ high.kind ∨ low.kind ≠ mid.kind

theorem not_hides_iff {low mid high : Value} :
    ¬Hides low mid high ↔
      high.isContainer = true ∧ mid.kind = high.kind ∧ low.kind = mid.kind := by
  simp [Hides]

theorem overlay_assoc_of_hides {low mid high : Value} (hhides : Hides low mid high)
    (h : ¬Interposed low mid high) :
    overlay joining path (overlay joining path low mid) high =
      overlay joining path low (overlay joining path mid high) := by
  by_cases hhigh : high.isContainer = false
  · simp only [overlay_eq_top (.inl hhigh)]
  by_cases hmid : mid.kind = high.kind
  · -- Only the lowest layer is hidden, and what hides it has the kind of the two above.
    have hlow : low.kind ≠ mid.kind := by simpa [Hides, hhigh, hmid] using hhides
    have hmerged : low.kind ≠ (overlay joining path mid high).kind := by
      rwa [kind_overlay, ← hmid]
    rw [overlay_eq_top (.inr hlow), overlay_eq_top (.inr hmerged)]
  · -- The highest layer hides the one between, so it must hide the lowest one as well.
    have hmerged : (overlay joining path low mid).kind ≠ high.kind := by rwa [kind_overlay]
    have hlow : low.kind ≠ high.kind := by
      intro hsame
      have hcontainer : low.isContainer = true := by
        rw [isContainer_of_kind_eq hsame]
        simpa using hhigh
      exact h (.here hcontainer hsame.symm fun hother => hmid (hother.trans hsame))
    rw [overlay_eq_top (.inr hmerged), overlay_eq_top (.inr hmid), overlay_eq_top (.inr hlow)]

theorem overlay_assoc {low mid high : Value} (hlow : low.HasDistinctKeys)
    (hmid : mid.HasDistinctKeys) (hhigh : high.HasDistinctKeys) (h : ¬Interposed low mid high) :
    overlay joining path (overlay joining path low mid) high =
      overlay joining path low (overlay joining path mid high) := by
  induction low using childInduction generalizing path mid high with
  | scalar low hscalar =>
      apply overlay_assoc_of_hides _ h
      by_contra hhides
      obtain ⟨hcontainer, hhighKind, hmidKind⟩ := not_hides_iff.1 hhides
      rw [← isContainer_of_kind_eq hhighKind, ← isContainer_of_kind_eq hmidKind, hscalar]
        at hcontainer
      contradiction
  | array xs _ =>
      by_cases hhides : Hides (array xs) mid high
      · exact overlay_assoc_of_hides hhides h
      obtain ⟨-, hhighKind, hmidKind⟩ := not_hides_iff.1 hhides
      obtain ⟨ys, rfl⟩ := exists_array_of_kind_eq hmidKind
      obtain ⟨zs, rfl⟩ := exists_array_of_kind_eq hhighKind
      exact overlay_array_assoc xs ys zs
  | object lows ih =>
      by_cases hhides : Hides (object lows) mid high
      · exact overlay_assoc_of_hides hhides h
      obtain ⟨-, hhighKind, hmidKind⟩ := not_hides_iff.1 hhides
      obtain ⟨mids, rfl⟩ := exists_object_of_kind_eq hmidKind
      obtain ⟨highs, rfl⟩ := exists_object_of_kind_eq hhighKind
      simp only [overlay_object]
      rw [overlayFields_assoc hlow.1 hmid.1 hhigh.1]
      intro key path x hx y hy z hz
      apply ih (key, x) (Table.mem_of_get? hx) (hlow.of_get? hx) (hmid.of_get? hy)
        (hhigh.of_get? hz)
      intro hbelow
      exact h (interposed_object_iff.2 ⟨key, x, hx, y, hy, z, hz, hbelow⟩)

/-- Layers merge in either order, the order of fields included, as long as none of them hides a
container from another of its kind. -/
theorem merge_assoc (joining : List Path) {a b c : Option Value}
    (ha : ∀ v ∈ a, v.HasDistinctKeys) (hb : ∀ v ∈ b, v.HasDistinctKeys)
    (hc : ∀ v ∈ c, v.HasDistinctKeys)
    (h : ∀ low ∈ a, ∀ mid ∈ b, ∀ high ∈ c, ¬Interposed low mid high) :
    merge joining (merge joining a b) c = merge joining a (merge joining b c) := by
  apply mergeAt_assoc_of_overlay
  intro low hlow mid hmid high hhigh
  exact overlay_assoc (ha low hlow) (hb mid hmid) (hc high hhigh) (h low hlow mid hmid high hhigh)

/-- Three layers with one key in common, under which arrays are joined, and two more keys under
which the highest layer hides another kind. -/
theorem merge_assoc_config_layers :
    let joining : List Path := [[.key "tags"]]
    let a := object [("tags", array [string "a"]), ("port", bool true)]
    let b := object [("tags", array [string "b"]), ("hosts", array [string "h"])]
    let c := object [("hosts", object []), ("tags", array [string "c"]), ("port", array [])]
    a.HasDistinctKeys ∧ b.HasDistinctKeys ∧ c.HasDistinctKeys ∧ ¬Interposed a b c ∧
      merge joining (merge joining (some a) (some b)) (some c) =
        merge joining (some a) (merge joining (some b) (some c)) ∧
      merge joining (some a) (merge joining (some b) (some c)) =
        some (object [("tags", array [string "a", string "b", string "c"]), ("port", array []),
          ("hosts", object [])]) := by
  intro joining a b c
  have ha : a.HasDistinctKeys := by
    simp [a, HasDistinctKeys, FieldsHaveDistinctKeys, HaveDistinctKeys, Table.keys]
  have hb : b.HasDistinctKeys := by
    simp [b, HasDistinctKeys, FieldsHaveDistinctKeys, HaveDistinctKeys, Table.keys]
  have hc : c.HasDistinctKeys := by
    simp [c, HasDistinctKeys, FieldsHaveDistinctKeys, HaveDistinctKeys, Table.keys]
  have h : ¬Interposed a b c := by
    intro hinterposed
    obtain ⟨key, low, hlow, mid, hmid, high, hhigh, hbelow⟩ := interposed_object_iff.1 hinterposed
    by_cases hkey : key = "tags"
    · simp [Table.get?_cons, hkey] at hlow hmid hhigh
      subst hlow hmid hhigh
      exact not_interposed_array _ _ _ hbelow
    · by_cases hhosts : key = "hosts" <;> simp_all [Table.get?_cons]
  refine ⟨ha, hb, hc, h, ?_, by rfl⟩
  apply merge_assoc joining
  · rintro v ⟨⟩
    exact ha
  · rintro v ⟨⟩
    exact hb
  · rintro v ⟨⟩
    exact hc
  · rintro low ⟨⟩ mid ⟨⟩ high ⟨⟩
    exact h

-- A scalar between two arrays: merged first with the lower one, it takes that away.
example :
    let a := some (array [bool true, bool false])
    let b := some null
    let c := some (array [string "c"])
    merge [] (merge [] a b) c = some (array [string "c"]) ∧
      merge [] a (merge [] b c) = some (array [string "c", bool false]) := by
  exact ⟨rfl, rfl⟩

end DocPath.Value

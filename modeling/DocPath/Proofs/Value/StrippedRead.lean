import DocPath.Proofs.Path.Index
import DocPath.Proofs.Path.Pattern
import DocPath.Proofs.Value.Slot
import DocPath.Proofs.Value.Strip

/-!
# Reading what stripping leaves

A child of what is left is what its own patterns left of a child that was there before: in an
object a child under the same key, in an array one at an index that may have been larger. A name
accepts all indices or none. So a pattern made of names that accepts a path in what is left has
accepted, step by step, the places that led there, and nothing is left at the last of them.
-/

namespace DocPath.Value

variable {patterns : List Path} {v w u : Value} {s : Segment}

/-- A child of what is left was left of a child whose key the same names accept. -/
theorem exists_strip_of_child? (h : strip patterns v = some w) (hchild : w.child? s = some u) :
    ∃ key child, strip (residual key patterns) child = some u ∧
      ∀ t : Segment, t.IsName → t.acceptsKey key = t.accepts s := by
  have hany : patterns.any List.isEmpty = false := any_isEmpty_of_strip h
  cases v with
  | array elements =>
      rw [strip_array hany] at h
      cases h
      obtain ⟨i, hi, hget⟩ := Option.bind_eq_some_iff.1 hchild
      have hmem : u ∈ stripElements patterns 0 elements := List.mem_of_getElem? hget
      rw [stripElements_eq_filterMap] at hmem
      obtain ⟨⟨child, j⟩, -, hkept⟩ := List.mem_filterMap.1 hmem
      -- The element stood at `j` and stands at `i`; a name accepts both or neither.
      refine ⟨decimal j, child, hkept, fun t ht => ?_⟩
      rw [Segment.accepts, Segment.index?_eq_some_iff.1 hi, ht.acceptsKey_decimal,
        ht.acceptsKey_decimal]
  | object fields =>
      rw [strip_object hany] at h
      cases h
      have hget : Table.get? (stripFields patterns fields) s.text = some u := hchild
      rw [get?_stripFields] at hget
      obtain ⟨child, -, hkept⟩ := Option.bind_eq_some_iff.1 hget
      exact ⟨s.text, child, hkept, fun _ _ => rfl⟩
  | null | bool | number | string =>
      rw [strip_scalar hany rfl] at h
      cases h
      cases hchild

/-- Nothing is read in what stripping leaves at a path that one of the patterns accepts, if that
pattern is made of names. -/
theorem get?_strip_of_accepts {patterns : List Path} {p : Path} (hp : p ∈ patterns)
    (hnames : p.NamesOnly) {c : Path} (hc : p.accepts c = true) (v : Value) :
    (strip patterns v).bind (·.get? c) = none := by
  induction p generalizing patterns c v with
  | nil =>
      rw [strip_eq_none_of_mem hp v, Option.bind_none]
  | cons s p ih =>
      cases c with
      | nil => contradiction
      | cons t c =>
          obtain ⟨hfirst, hrest⟩ := Bool.and_eq_true_iff.1 hc
          refine Option.bind_eq_none_iff.2 fun w hw => ?_
          rw [get?_cons]
          refine Option.bind_eq_none_iff.2 fun u hu => ?_
          obtain ⟨key, child, hkept, hsame⟩ := exists_strip_of_child? hw hu
          have hhead : s.acceptsKey key = true := by
            rw [hsame s (hnames s List.mem_cons_self), hfirst]
          have hbelow : (strip (residual key patterns) child).bind (·.get? c) = none :=
            ih (mem_residual_iff.2 ⟨s, hp, hhead⟩)
              (fun t' ht' => hnames t' (List.mem_cons_of_mem s ht')) hrest child
          rwa [hkept] at hbelow

/-- Passwords of users, of whom another pattern removes the first: neither the second user at its
new place nor the one behind has a password left, however the place is spelled. -/
theorem get?_strip_of_accepts_renumbered :
    let patterns : List Path := [[.key "users", .index 0], [.key "users", .key "*", .key "pw"]]
    let p : Path := [.key "users", .key "*", .key "pw"]
    let v := object [("users", array [null, object [("pw", string "a"), ("name", string "b")],
      object [("name", string "c"), ("pw", string "d")]])]
    let c : Path := [.key "users", .index 0, .key "pw"]
    let c' : Path := [.key "users", .key "1", .key "pw"]
    p ∈ patterns ∧ p.NamesOnly ∧ p.accepts c = true ∧ p.accepts c' = true ∧
      (strip patterns v).bind (·.get? c) = none ∧ (strip patterns v).bind (·.get? c') = none ∧
      strip patterns v = some (object [("users",
        array [object [("name", string "b")], object [("name", string "c")]])]) := by
  intro patterns p v c c'
  have hp : p ∈ patterns := by simp [patterns, p]
  have hnames : p.NamesOnly := by
    simp [p, Path.NamesOnly, Segment.IsName, Numeral.isDigits]
  have hc : p.accepts c = true := by rfl
  have hc' : p.accepts c' = true := by rfl
  exact ⟨hp, hnames, hc, hc', get?_strip_of_accepts hp hnames hc v,
    get?_strip_of_accepts hp hnames hc' v, by rfl⟩

-- A pattern with an index accepts the place of an element that was not there when it was applied.
example :
    let p : Path := [.index 0]
    p.accepts [.key "0"] = true ∧
      (strip [p] (array [string "a", string "b"])).bind (·.get? [.key "0"]) =
        some (string "b") := by
  exact ⟨rfl, rfl⟩

end DocPath.Value

import Mathlib.Data.List.Basic
import DocPath.Numeral
import DocPath.Value.Strip

/-!
# Patterns below a path

What is left of a pattern below a path tells what the pattern accepts: it accepts the path if
nothing is left, and the rest is found step by step along the path. So the lists of rests that
stripping hands down are the rests below the path it has come to.

Patterns made of names cannot tell the elements of an array apart: below each of them the same is
left.
-/

namespace DocPath

namespace Path

theorem below?_append (p path path' : Path) :
    p.below? (path ++ path') = (p.below? path).bind fun rest => rest.below? path' := by
  induction path generalizing p with
  | nil => simp [below?]
  | cons s path ih =>
      cases p with
      | nil => rfl
      | cons t p =>
          rw [List.cons_append, below?, below?]
          split
          · exact ih p
          · rfl

/-- A pattern accepts a path exactly if nothing is left of it below the path. -/
theorem accepts_iff_below? (p path : Path) : p.accepts path = true ↔ p.below? path = some [] := by
  induction path generalizing p with
  | nil => cases p <;> simp [accepts, below?]
  | cons s path ih =>
      cases p with
      | nil => simp [accepts, below?]
      | cons t p =>
          rw [accepts, below?]
          by_cases h : t.accepts s = true
          · simp [h, ih]
          · simp [h]

/-- What is left of a pattern stands behind the segments that accept the path. -/
theorem below?_eq_drop (p path : Path) :
    p.below? path =
      if path.length ≤ p.length ∧ accepts (p.take path.length) path = true then
        some (p.drop path.length)
      else none := by
  induction path generalizing p with
  | nil => cases p <;> rfl
  | cons s path ih =>
      cases p with
      | nil => rfl
      | cons t p =>
          rw [below?, ih]
          by_cases h : t.accepts s = true
          · simp [accepts, h]
          · simp [accepts, h]

end Path

/-- What is left of some patterns below a path. -/
def below (patterns : List Path) (path : Path) : List Path := patterns.filterMap (·.below? path)

theorem below_nil (patterns : List Path) : below patterns [] = patterns := by
  have hroot : (fun p : Path => p.below? []) = some := by
    funext p
    cases p <;> rfl
  rw [below, hroot, List.filterMap_some]

/-- What is left of some patterns are the ends of those that start by accepting the path. -/
theorem below_eq_map_drop (patterns : List Path) (path : Path) :
    below patterns path =
      (patterns.filter fun p =>
        path.length ≤ p.length ∧ Path.accepts (p.take path.length) path = true).map
          (·.drop path.length) := by
  rw [below, ← List.filterMap_eq_map, List.filterMap_filter]
  simp [Path.below?_eq_drop]

theorem residual_eq_below (patterns : List Path) (s : Segment) :
    residual s.text patterns = below patterns [s] := by
  unfold residual below
  congr 1
  funext p
  cases p with
  | nil => rfl
  | cons t p => simp [Path.below?, Segment.accepts]

/-- What is left of some patterns below a key are the rests of those that start with it. -/
theorem mem_residual_iff {patterns : List Path} {key : String} {rest : Path} :
    rest ∈ residual key patterns ↔
      ∃ s : Segment, s :: rest ∈ patterns ∧ s.acceptsKey key = true := by
  unfold residual
  rw [List.mem_filterMap]
  constructor
  · rintro ⟨p, hp, hrest⟩
    cases p with
    | nil => cases hrest
    | cons s p =>
        obtain ⟨hs, rfl⟩ : s.acceptsKey key = true ∧ p = rest := by simpa using hrest
        exact ⟨s, hp, hs⟩
  · rintro ⟨s, hp, hs⟩
    exact ⟨s :: rest, hp, if_pos hs⟩

theorem residual_append (key : String) (patterns patterns' : List Path) :
    residual key (patterns ++ patterns') = residual key patterns ++ residual key patterns' :=
  List.filterMap_append

theorem below_append (patterns : List Path) (path path' : Path) :
    below patterns (path ++ path') = below (below patterns path) path' := by
  simp only [below, List.filterMap_filterMap, Path.below?_append]

/-- One step down from a path. -/
theorem residual_below (patterns : List Path) (path : Path) (s : Segment) :
    residual s.text (below patterns path) = below patterns (path ++ [s]) := by
  rw [residual_eq_below, below_append]

theorem any_isEmpty_below (patterns : List Path) (path : Path) :
    (below patterns path).any List.isEmpty = patterns.any (·.accepts path) := by
  rw [Bool.eq_iff_iff, List.any_eq_true, List.any_eq_true]
  simp only [below, List.mem_filterMap, List.isEmpty_iff, Path.accepts_iff_below?]
  constructor
  · rintro ⟨rest, ⟨p, hp, hrest⟩, rfl⟩
    exact ⟨p, hp, hrest⟩
  · rintro ⟨p, hp, hrest⟩
    exact ⟨[], ⟨p, hp, hrest⟩, rfl⟩

/-! ## Places that no pattern accepts -/

section Refused

variable {patterns : List Path} {path : Path} {P : Path → Prop}

theorem any_accepts_of_refused
    (h : ∀ place, P place → ∀ p ∈ patterns, p.accepts (path ++ place) = false) (hroot : P []) :
    patterns.any (·.accepts path) = false := by
  rw [List.any_eq_false]
  intro p hp
  have hplace := h [] hroot p hp
  rw [List.append_nil] at hplace
  simp [hplace]

/-- Patterns that accept no place below a path accept none below a segment behind it. -/
theorem refused_below {s : Segment} {Q : Path → Prop}
    (h : ∀ place, P place → ∀ p ∈ patterns, p.accepts (path ++ place) = false)
    (hbelow : ∀ place, Q place → P (s :: place)) :
    ∀ place, Q place → ∀ p ∈ patterns, p.accepts (path ++ [s] ++ place) = false := by
  intro place hplace p hp
  rw [List.append_assoc]
  exact h (s :: place) (hbelow place hplace) p hp

end Refused

/-! ## Names -/

/-- A key that is no run of digits; the wildcard is one. -/
def Segment.IsName : Segment → Prop
  | .index _ => False
  | .key name => Numeral.isDigits name.toList = false

/-- A pattern without numbers. -/
def Path.NamesOnly (pattern : Path) : Prop := ∀ s ∈ pattern, s.IsName

theorem isDigits_decimal (i : Nat) : Numeral.isDigits (decimal i).toList = true := by
  have hdigits : ∀ d ∈ Nat.toDigits 10 i, d.isDigit = true :=
    fun d hd => Nat.isDigit_of_mem_toDigits (by decide) (by decide) hd
  simpa [Numeral.isDigits, decimal, Nat.toDigits_ne_nil] using hdigits

/-- A name accepts the place of an element only as the wildcard. -/
theorem Segment.IsName.acceptsKey_decimal {s : Segment} (h : s.IsName) (i : Nat) :
    s.acceptsKey (decimal i) = s.isWildcard := by
  cases s with
  | index i => exact h.elim
  | key name =>
      have hne : name ≠ decimal i := by
        rintro rfl
        rw [Segment.IsName, isDigits_decimal] at h
        contradiction
      simp [Segment.acceptsKey, Segment.text, hne]

theorem residual_decimal {patterns : List Path} (h : ∀ p ∈ patterns, p.NamesOnly) (i j : Nat) :
    residual (decimal i) patterns = residual (decimal j) patterns := by
  apply List.filterMap_congr
  intro p hp
  cases p with
  | nil => rfl
  | cons s p =>
      have hs : s.IsName := h (s :: p) hp s List.mem_cons_self
      simp only [hs.acceptsKey_decimal]

theorem namesOnly_residual {patterns : List Path} (h : ∀ p ∈ patterns, p.NamesOnly)
    (key : String) : ∀ p ∈ residual key patterns, p.NamesOnly := by
  intro p hp t ht
  obtain ⟨s, hs, -⟩ := mem_residual_iff.1 hp
  exact h (s :: p) hs t (List.mem_cons_of_mem s ht)

end DocPath

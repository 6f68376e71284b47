import Mathlib.Data.List.Basic
import DocPath.Path.Pattern
import DocPath.Value.Shape
import DocPath.Proofs.Value.Slot

/-!
# Paths that read alike

What a path reads depends on the texts of its segments alone. Two paths with different texts are
told apart by the trail of one of them: the value that has an object for each segment and nothing
beside them. So a pattern without wildcards accepts exactly the paths that read what it reads.
-/

namespace DocPath

namespace Segment

/-- Segments with one text are the same, or an index and a key that is the index in decimal. -/
theorem text_eq_text_iff {s t : Segment} :
    s.text = t.text ↔
      s = t ∨ ∃ i : UInt64, (s = .index i ∧ t = .key (decimal i.toNat)) ∨
        (s = .key (decimal i.toNat) ∧ t = .index i) := by
  cases s with
  | index i =>
      cases t with
      | index j =>
          constructor
          · intro h
            have hij : i = j := UInt64.toNat_inj.1 (decimal_inj h)
            exact .inl (congrArg index hij)
          · rintro (h | ⟨k, ⟨-, h⟩ | ⟨h, -⟩⟩)
            · exact congrArg text h
            · cases h
            · cases h
      | key name => simp [text, eq_comm]
  | key name =>
      cases t with
      | index j => simp [text]
      | key name' => simp [text]

end Segment

namespace Path

/-- A pattern without wildcards accepts the paths that have its texts. -/
theorem accepts_iff_map_text {pattern : Path} (h : ∀ s ∈ pattern, s.isWildcard = false)
    (candidate : Path) :
    pattern.accepts candidate = true ↔
      candidate.map Segment.text = pattern.map Segment.text := by
  induction pattern generalizing candidate with
  | nil => cases candidate <;> simp [accepts]
  | cons s pattern ih =>
      cases candidate with
      | nil => simp [accepts]
      | cons t candidate =>
          have hs : s.isWildcard = false := h s List.mem_cons_self
          have hrest := ih (fun u hu => h u (List.mem_cons_of_mem s hu)) candidate
          have hfirst : s.accepts t = true ↔ t.text = s.text := by
            simp only [Segment.accepts, Segment.acceptsKey, hs, Bool.false_or, beq_iff_eq]
            exact eq_comm
          simp [accepts, hfirst, hrest]

/-- The value with an object for each segment of a path, and nothing beside the path. -/
def trail : Path → Value
  | [] => .null
  | s :: p => .object [(s.text, trail p)]

theorem hasDistinctKeys_trail (p : Path) : (trail p).HasDistinctKeys := by
  induction p with
  | nil => trivial
  | cons s p ih =>
      show (Table.keys [(s.text, trail p)]).Nodup ∧ (trail p).HasDistinctKeys ∧ True
      exact ⟨by simp [Table.keys], ih, trivial⟩

end Path

namespace Value

open DocPath.Path

/-- Paths with the same texts read the same of every value. -/
theorem get?_congr {p q : Path} (h : p.map Segment.text = q.map Segment.text) (v : Value) :
    v.get? p = v.get? q := by
  induction p generalizing q v with
  | nil =>
      obtain rfl : q = [] := List.map_eq_nil_iff.1 h.symm
      rfl
  | cons s p ih =>
      cases q with
      | nil => cases h
      | cons t q =>
          obtain ⟨htext, hrest⟩ := List.cons.inj h
          rw [get?_cons, get?_cons, child?_congr htext v]
          simp only [ih hrest]

/-- The end of a trail is read by the paths with its texts alone. -/
theorem get?_trail_eq_null_iff (p q : Path) :
    (trail p).get? q = some null ↔ q.map Segment.text = p.map Segment.text := by
  induction p generalizing q with
  | nil =>
      cases q with
      | nil => simp [trail, get?_nil]
      | cons t q => simp [trail, get?_cons, child?]
  | cons s p ih =>
      cases q with
      | nil => simp [trail, get?_nil]
      | cons t q =>
          rw [get?_cons, trail, child?, Table.get?_cons]
          by_cases htext : t.text = s.text
          · simp [htext, ih q]
          · simp [htext]

/-- A value with each key once tells paths with different texts apart. -/
theorem exists_get?_ne {p q : Path} (h : q.map Segment.text ≠ p.map Segment.text) :
    ∃ v : Value, v.HasDistinctKeys ∧ v.get? q ≠ v.get? p := by
  refine ⟨trail p, hasDistinctKeys_trail p, fun heq => h ?_⟩
  rw [← get?_trail_eq_null_iff, heq, get?_trail_eq_null_iff]

/-- Segments can stand for each other in all paths exactly if they have one text. -/
theorem interchangeable_iff {s t : Segment} :
    (∀ (v : Value) (p q : Path), v.get? (p ++ s :: q) = v.get? (p ++ t :: q)) ↔
      s.text = t.text := by
  constructor
  · intro h
    by_contra hne
    have hpaths : List.map Segment.text [s] ≠ List.map Segment.text [t] := by simpa using hne
    obtain ⟨v, -, hv⟩ := exists_get?_ne hpaths
    exact hv (h v [] [])
  · intro h v p q
    apply get?_congr
    simp [h]

/-- A pattern without wildcards accepts exactly the paths that read what it reads of every value,
and of what it does not accept some value with each key once reads otherwise. So an index and the
key with its digits are interchangeable in all paths, and no other two segments are. -/
theorem accepts_iff_get?_eq {pattern : Path} (h : ∀ s ∈ pattern, s.isWildcard = false) :
    (∀ candidate : Path,
      (pattern.accepts candidate = true ↔
        ∀ v : Value, v.get? candidate = v.get? pattern) ∧
      (pattern.accepts candidate = false →
        ∃ v : Value, v.HasDistinctKeys ∧ v.get? candidate ≠ v.get? pattern)) ∧
    ∀ s t : Segment,
      (∀ (v : Value) (p q : Path), v.get? (p ++ s :: q) = v.get? (p ++ t :: q)) ↔
        s = t ∨ ∃ i : UInt64, (s = .index i ∧ t = .key (decimal i.toNat)) ∨
          (s = .key (decimal i.toNat) ∧ t = .index i) := by
  refine ⟨fun candidate => ?_, fun s t => ?_⟩
  · have htexts := accepts_iff_map_text h candidate
    have hapart : pattern.accepts candidate = false →
        ∃ v : Value, v.HasDistinctKeys ∧ v.get? candidate ≠ v.get? pattern := by
      intro hrefused
      apply exists_get?_ne
      rw [Ne, ← htexts, hrefused]
      exact Bool.false_ne_true
    refine ⟨⟨fun haccepts => get?_congr (htexts.1 haccepts), fun halike => ?_⟩, hapart⟩
    by_contra hrefused
    obtain ⟨v, -, hv⟩ := hapart (by simpa using hrefused)
    exact hv (halike v)
  · rw [interchangeable_iff, Segment.text_eq_text_iff]

/-- The index 7 and the key `7` read the same everywhere; with a zero in front the key is told
apart. -/
theorem accepts_iff_get?_eq_seven :
    let pattern : Path := [.key "x", .index 7]
    (∀ s ∈ pattern, s.isWildcard = false) ∧
      (∀ v : Value, v.get? [.key "x", .key "7"] = v.get? pattern) ∧
      ∃ v : Value, v.HasDistinctKeys ∧ v.get? [.key "x", .key "07"] ≠ v.get? pattern := by
  intro pattern
  have hpattern : ∀ s ∈ pattern, s.isWildcard = false := by decide
  obtain ⟨hpaths, -⟩ := accepts_iff_get?_eq hpattern
  exact ⟨hpattern, (hpaths [.key "x", .key "7"]).1.1 (by decide),
    (hpaths [.key "x", .key "07"]).2 (by decide)⟩

-- The wildcard of a pattern accepts a key that reads something else.
example :
    let v := object [("a", null)]
    Path.accepts [.wildcard] [.key "a"] = true ∧ v.get? [.key "a"] = some null ∧
      v.get? [.wildcard] = none := by
  exact ⟨rfl, rfl, rfl⟩

end Value

end DocPath

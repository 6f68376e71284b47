import DocPath.Document
import DocPath.Proofs.Json.Double
import DocPath.Proofs.Json.RoundTrip

/-!
# Rendered documents read back

The text of a value with distinct keys and canonical numbers in JSON, on one line or on indented
lines, is JSON that spells the value, given that its doubles are read back. So it reads back as the
value in this format, without a format, where JSON is tried first, and as an argument.
-/

namespace DocPath

namespace Value

theorem hasCanonicalNumbers_iff {v : Value} :
    v.HasCanonicalNumbers ↔ ∀ n ∈ v.numbers, n.IsCanonical := by
  induction v using childInduction with
  | scalar v hscalar => cases v <;> simp_all [HasCanonicalNumbers, numbers, isContainer]
  | array elements ih =>
      rw [HasCanonicalNumbers, numbers]
      induction elements with
      | nil => simp [HaveCanonicalNumbers, numbersOfElements]
      | cons v rest hrest =>
          have htail := hrest fun w hw => ih w (List.mem_cons_of_mem v hw)
          rw [HaveCanonicalNumbers, numbersOfElements, htail, ih v List.mem_cons_self]
          simp [or_imp, forall_and]
  | object fields ih =>
      rw [HasCanonicalNumbers, numbers]
      induction fields with
      | nil => simp [FieldsHaveCanonicalNumbers, numbersOfFields]
      | cons e rest hrest =>
          have htail := hrest fun w hw => ih w (List.mem_cons_of_mem e hw)
          rw [FieldsHaveCanonicalNumbers, numbersOfFields, htail, ih e List.mem_cons_self]
          simp [or_imp, forall_and]

theorem isRegular_readsBack [Json.DoubleReader] {v : Value} (hdistinct : v.HasDistinctKeys)
    (hcanonical : v.HasCanonicalNumbers) (hcodec : Json.ReadsBackDoubles v) :
    IsRegular Json.ReadsBack v :=
  isRegular_iff.2 ⟨hdistinct, fun _ hn =>
    hcodec.readsBack hn (hasCanonicalNumbers_iff.1 hcanonical _ hn)⟩

end Value

namespace Document

open Json Value

theorem render_json_of_le {indent : UInt64} (h : indent.toNat ≤ maxLength) (v : Value) :
    render .json indent v = .ok (endLine (pretty indent.toNat v)) :=
  if_neg (Nat.not_lt.2 h)

theorem render_json_of_lt {indent : UInt64} (h : maxLength < indent.toNat) (v : Value) :
    render .json indent v = .error {} :=
  if_pos h

/-- A rendered value is its text on indented lines, with a line break or nothing behind it. -/
theorem exists_render_json {indent : UInt64} {v : Value} {text : String}
    (h : render .json indent v = .ok text) :
    ∃ blank, (∀ c ∈ blank, isSpace c = true) ∧
      text = String.ofList (chars (.indented indent.toNat) 0 v ++ blank) := by
  have hle : indent.toNat ≤ maxLength := by
    by_contra hlt
    rw [render_json_of_lt (Nat.lt_of_not_le hlt)] at h
    cases h
  rw [render_json_of_le hle, Except.ok.injEq] at h
  subst h
  rw [endLine]
  split
  · refine ⟨[], List.forall_mem_nil _, ?_⟩
    rw [List.append_nil]
    rfl
  · refine ⟨['\n'], fun c hc => ?_, ?_⟩
    · rw [List.mem_singleton.1 hc]
      rfl
    · apply String.toList_injective
      simp [pretty]

section

variable [DoubleReader] {v : Value} (hv : IsRegular ReadsBack v) (hdepth : v.depth ≤ maxDepth)
include hv hdepth

theorem parse?_compact : Json.parse? (compact v) = some v := by
  have htext := parse?_chars isBlank_compact hv hdepth (List.forall_mem_nil _)
  rwa [List.append_nil] at htext

theorem ofArgument_compact : ofArgument (compact v) = v := by
  rw [ofArgument, parse?_compact hv hdepth]
  rfl

variable {indent : UInt64} {text : String} (htext : render .json indent v = .ok text)
include htext

theorem parse?_render : Json.parse? text = some v := by
  obtain ⟨blank, hblank, rfl⟩ := exists_render_json htext
  exact parse?_chars (isBlank_indented indent.toNat) hv hdepth hblank

theorem parse_json_render : parse (some .json) text = .ok v := by
  rw [parse, parse?_render hv hdepth htext]
  rfl

/-- Without a format a rendered value is taken for JSON. -/
theorem parse_none_render : parse none text = .ok v := by
  rw [parse, parse?_render hv hdepth htext]
  rfl

theorem ofArgument_render : ofArgument text = v := by
  rw [ofArgument, parse?_render hv hdepth htext]
  rfl

end

/-! ## A document with a number of each kind -/

def sampleDocument : Value :=
  .object [("a", .array [.number (.int (-1)), .number (.double ⟨0x4004000000000000⟩),
    .number (.nat 0x8000000000000000)])]

theorem sampleDocument_hasDistinctKeys : sampleDocument.HasDistinctKeys := by
  simp [sampleDocument, HasDistinctKeys, HaveDistinctKeys, FieldsHaveDistinctKeys, Table.keys]

theorem numbers_sampleDocument : sampleDocument.numbers =
    [.int (-1), .double ⟨0x4004000000000000⟩, .nat 0x8000000000000000] := rfl

theorem sampleDocument_hasCanonicalNumbers : sampleDocument.HasCanonicalNumbers := by
  rw [hasCanonicalNumbers_iff, numbers_sampleDocument]
  simp [Number.IsCanonical]
  decide

end Document

end DocPath

import DocPath.Proofs.Document.RoundTrip
import DocPath.Proofs.Json.Regular
import DocPath.Proofs.Yaml.Regular

/-!
# What can be computed can be written and read back

Values come from texts in any format, and from each other by reading, writing, stripping and
merging. All of them are regular, with whole numbers that have a sign where they can have one. So
all of them that nest no deeper than texts may, and hold finite doubles only, are read back from
their texts, given that the doubles are. Only an indentation that is longer than texts can be leaves
a value without a text.
-/

namespace DocPath.Document

open Value

section

variable [Json.DoubleReader]

/-- The value comes from texts by way of reading, writing, stripping and merging. -/
inductive Computed : Value → Prop where
  | parsed {format : Option Format} {text : String} {v : Value} (h : parse format text = .ok v) :
      Computed v
  | argument (text : String) : Computed (ofArgument text)
  | read {v w : Value} {p : Path} (hv : Computed v) (h : v.get? p = some w) : Computed w
  | written (preferArrays : Bool) {v : Option Value} (p : Path) {x : Value}
      (hv : ∀ w ∈ v, Computed w) (hx : Computed x) : Computed (set preferArrays v p x)
  | stripped {patterns : List Path} {v w : Value} (hv : Computed v)
      (h : strip patterns v = some w) : Computed w
  | merged {joining : List Path} {path : Path} {base top : Option Value} {v : Value}
      (hbase : ∀ w ∈ base, Computed w) (htop : ∀ w ∈ top, Computed w)
      (h : mergeAt joining path base top = some v) : Computed v

theorem isRegular_of_parse {format : Option Format} {text : String} {v : Value}
    (h : parse format text = .ok v) : IsRegular Number.IsNarrow v := by
  have helim : ∀ {found : Option Value} {e : DocumentError},
      found.elim (.error e) .ok = Except.ok v → found = some v := by
    intro found e hfound
    cases found with
    | none => cases hfound
    | some w =>
        cases hfound
        rfl
  cases format with
  | none =>
      rcases Option.or_eq_some_iff.1 (helim h) with hjson | ⟨-, hyaml⟩
      · exact Json.isRegular_of_parse? hjson
      · exact Yaml.isRegular_of_parse? hyaml
  | some format =>
      cases format with
      | json => exact Json.isRegular_of_parse? (helim h)
      | yaml => exact Yaml.isRegular_of_parse? (helim h)

theorem isRegular_ofArgument (text : String) : IsRegular Number.IsNarrow (ofArgument text) := by
  rw [ofArgument]
  cases h : Json.parse? text with
  | none => exact .string text
  | some v => exact Json.isRegular_of_parse? h

/-- All that can be computed is regular. -/
theorem Computed.isRegular {v : Value} (h : Computed v) : IsRegular Number.IsNarrow v := by
  induction h with
  | parsed h => exact isRegular_of_parse h
  | argument text => exact isRegular_ofArgument text
  | read _ h ih => exact ih.get? h
  | written preferArrays p _ _ ihv ihx => exact IsRegular.set ihv p ihx
  | stripped _ h ih => exact ih.strip h
  | merged _ _ h ihbase ihtop => exact IsRegular.mergeAt ihbase ihtop h

/-- In what is computed the numbers are canonical as far as the doubles are finite. -/
theorem Computed.hasCanonicalNumbers {v : Value} (h : Computed v)
    (hfinite : ∀ x, .double x ∈ v.numbers → x.isFinite = true) : v.HasCanonicalNumbers := by
  refine hasCanonicalNumbers_iff.2 fun n hn => ?_
  have hnarrow := (isRegular_iff.1 h.isRegular).2 n hn
  cases n with
  | int i => trivial
  | nat n => exact hnarrow
  | double x => exact hfinite x hn

/-- What is computed, nests no deeper than texts may and holds finite doubles only, is read back
from its text, if its doubles are: as JSON, without a format, and as an argument, with lines and
without. It has a text on lines for every indentation that is no longer than a text can be, and for
no other one. -/
theorem Computed.parse_render {v : Value} (h : Computed v) (hdepth : v.depth ≤ Json.maxDepth)
    (hfinite : ∀ x, .double x ∈ v.numbers → x.isFinite = true) (hcodec : Json.ReadsBackDoubles v)
    (indent : UInt64) :
    (indent.toNat ≤ maxLength → ∃ text, render .json indent v = .ok text ∧
      parse (some .json) text = .ok v ∧ parse none text = .ok v ∧ ofArgument text = v) ∧
    (maxLength < indent.toNat → render .json indent v = .error {}) ∧
    ofArgument (Json.compact v) = v := by
  have hdistinct : v.HasDistinctKeys := (isRegular_iff.1 h.isRegular).1
  have hv : IsRegular Json.ReadsBack v :=
    isRegular_readsBack hdistinct (h.hasCanonicalNumbers hfinite) hcodec
  refine ⟨fun hle => ?_, fun hlt => render_json_of_lt hlt v, ofArgument_compact hv hdepth⟩
  have htext := render_json_of_le hle v
  exact ⟨_, htext, parse_json_render hv hdepth htext, parse_none_render hv hdepth htext,
    ofArgument_render hv hdepth htext⟩

end

open scoped Json.Nearest

theorem computed_sampleDocument : Computed sampleDocument := by
  have hv : IsRegular Json.ReadsBack sampleDocument :=
    isRegular_readsBack sampleDocument_hasDistinctKeys sampleDocument_hasCanonicalNumbers
      (Json.readsBackDoubles_nearest _)
  rw [← ofArgument_compact hv (by decide)]
  exact .argument _

/-- The sample document under a key of its own, too. -/
def nestedSample : Value := set true (some sampleDocument) [.key "b", .index 1] sampleDocument

theorem numbers_nestedSample :
    nestedSample.numbers = sampleDocument.numbers ++ sampleDocument.numbers := by
  decide +kernel

theorem parse_render_nestedSample :
    (∃ text, render .json 4 nestedSample = .ok text ∧
      parse (some .json) text = .ok nestedSample ∧ parse none text = .ok nestedSample ∧
      ofArgument text = nestedSample) ∧
    render .json 0x8000000000000000 nestedSample = .error {} ∧
    ofArgument (Json.compact nestedSample) = nestedSample := by
  have hcomputed : Computed nestedSample :=
    .written true _ (fun w hw => Option.some.inj hw ▸ computed_sampleDocument)
      computed_sampleDocument
  have hfinite : ∀ x, Number.double x ∈ nestedSample.numbers → x.isFinite = true := by
    intro x hx
    rw [numbers_nestedSample] at hx
    have hmem : Number.double x ∈ sampleDocument.numbers := (List.mem_append.1 hx).elim id id
    exact hasCanonicalNumbers_iff.1 sampleDocument_hasCanonicalNumbers _ hmem
  have hall := Computed.parse_render hcomputed (by decide +kernel) hfinite
    (Json.readsBackDoubles_nearest _)
  exact ⟨(hall 4).1 (by decide), (hall _).2.1 (by decide), (hall 4).2.2⟩

/-- With the largest indentation there is, not even a scalar has a text to be read back. -/
theorem null_without_text :
    Computed .null ∧ Value.null.depth ≤ Json.maxDepth ∧
      (∀ x, .double x ∈ Value.null.numbers → x.isFinite = true) ∧
      Json.ReadsBackDoubles .null ∧
      ¬∃ text, render .json 0xFFFFFFFFFFFFFFFF .null = .ok text ∧
        parse (some .json) text = .ok .null := by
  have hcomputed : Computed .null := by
    rw [← ofArgument_compact .null (by decide)]
    exact .argument _
  have hfinite : ∀ x, Number.double x ∈ Value.null.numbers → x.isFinite = true :=
    fun x hx => by cases hx
  refine ⟨hcomputed, by decide, hfinite, Json.readsBackDoubles_nearest _, ?_⟩
  rintro ⟨text, htext, -⟩
  rw [render_json_of_lt (by decide)] at htext
  cases htext

end DocPath.Document

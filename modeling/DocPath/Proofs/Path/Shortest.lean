import Mathlib.Control.Monad.Basic
import DocPath.Proofs.Path.Index
import DocPath.Proofs.Path.Printer

/-!
# The canonical text is the shortest

Of all texts that spell a path, the canonical one is the shortest, and no other has its length. A
spelling is taken apart along its derivation: the characters of a quoted key can be written in one
way only, digits can have zeros in front that they do not need, and a key that can stand bare is
longer in a bracket.
-/

namespace DocPath.Path

/-- A text is shorter than another one, unless it is the same. -/
def Undercuts (best other : List Char) : Prop := other = best ∨ best.length < other.length

theorem Undercuts.refl (cs : List Char) : Undercuts cs cs := .inl rfl

theorem Undercuts.append {best other best' other' : List Char} (h : Undercuts best other)
    (h' : Undercuts best' other') : Undercuts (best ++ best') (other ++ other') := by
  unfold Undercuts
  rw [List.length_append, List.length_append]
  rcases h with rfl | hlt
  · rcases h' with rfl | hlt'
    · exact .inl rfl
    · exact .inr (by omega)
  · rcases h' with rfl | hlt'
    · exact .inr (by omega)
    · exact .inr (by omega)

/-! ## Segments -/

/-- Between quotes there is one way to write a key. -/
theorem SpellsQuoted.eq_escape {cs key : List Char} (h : SpellsQuoted cs key) :
    cs = escape key := by
  induction h with
  | nil => rfl
  | char plain _ ih => rw [escape, if_neg (not_or.2 plain), ih]
  | escaped special _ ih => rw [escape, if_pos special, ih]

theorem length_le_escape (key : List Char) : key.length ≤ (escape key).length := by
  induction key with
  | nil => exact Nat.le_refl 0
  | cons c key ih =>
      rw [escape]
      split
      · simp only [List.length_cons]
        omega
      · simp only [List.length_cons]
        omega

/-- Digits that are not the text of their value start with a zero that they do not need. -/
theorem undercuts_digits {digits : List Char} (hne : digits ≠ [])
    (hdigits : ∀ d ∈ digits, d.isDigit = true) :
    Undercuts (Nat.toDigits 10 (decimalValue digits)) digits := by
  induction digits with
  | nil => contradiction
  | cons c cs ih =>
      by_cases hzero : c = '0' ∧ cs ≠ []
      · obtain ⟨rfl, hcs⟩ := hzero
        have hshort := ih hcs fun d hd => hdigits d (List.mem_cons_of_mem _ hd)
        -- The zero in front does not count.
        have hvalue : decimalValue ('0' :: cs) = decimalValue cs := rfl
        rw [hvalue]
        right
        rcases hshort with heq | hlt
        · rw [← heq]
          exact Nat.lt_succ_self _
        · exact Nat.lt_succ_of_lt hlt
      · have hcanonical : Segment.isCanonicalIndex (c :: cs) = true :=
          Segment.isCanonicalIndex_cons.2 ⟨hdigits, by simpa using hzero⟩
        rw [Segment.toDigits_decimalValue hcanonical]
        exact .refl _

theorem undercuts_bracket {text : List Char} {s : Segment} (h : SpellsBracket text s)
    (first : Bool) : Undercuts (segmentChars first s) text := by
  cases h with
  | @index digits hne hdigits hsmall =>
      rw [segmentChars, UInt64.toNat_ofNat_of_lt' hsmall]
      have hbracket := (undercuts_digits hne hdigits).append (.refl [']'])
      exact Undercuts.append (.refl ['[']) hbracket
  | @key cs key hquoted =>
      rw [segmentChars, hquoted.eq_escape, String.toList_ofList]
      split
      · -- Brackets and quotes take more than a dot does.
        have hlength := length_le_escape key
        right
        split
        · simp only [List.length_cons, List.length_append]
          omega
        · simp only [List.length_cons, List.length_append]
          omega
      · exact .refl _

/-! ## Paths -/

theorem segmentChars_name {word : List Char} (h : IsName word) (first : Bool) :
    segmentChars first (.key (String.ofList word)) = if first then word else '.' :: word := by
  rw [segmentChars, String.toList_ofList, if_pos (isBareKey_iff.2 h)]

theorem undercuts_rest {cs : List Char} {p : Path} (h : SpellsRest cs p) :
    Undercuts (chars false p) cs := by
  induction h with
  | nil => exact .refl []
  | name hname _ ih =>
      rw [chars, segmentChars_name hname]
      exact Undercuts.append (.refl _) ih
  | bracket hbracket _ ih =>
      rw [chars]
      exact (undercuts_bracket hbracket false).append ih

theorem undercuts_chars {cs : List Char} {p : Path} (h : Spells cs p) :
    Undercuts (chars true p) cs := by
  cases h with
  | root => exact .refl []
  | name hname hrest =>
      rw [chars, segmentChars_name hname]
      exact Undercuts.append (.refl _) (undercuts_rest hrest)
  | bracket hbracket hrest =>
      rw [chars]
      exact (undercuts_bracket hbracket true).append (undercuts_rest hrest)

/-- The canonical text spells the path, and no text that does is shorter; none but it has its
length. -/
theorem length_text_le {t : String} {p : Path} (h : parse t = .ok p) :
    parse (text p) = .ok p ∧ (text p).length ≤ t.length ∧
      ((text p).length = t.length → t = text p) := by
  have hbest : Undercuts (chars true p) t.toList := undercuts_chars (parse_eq_ok_iff.1 h)
  have htext : (text p).toList = chars true p := String.toList_ofList
  have hspells : Spells (text p).toList p := by
    rw [htext]
    exact spellsAtoms_chars true p
  refine ⟨parse_eq_ok_iff.2 hspells, ?_⟩
  rw [← String.length_toList, ← String.length_toList, htext]
  rcases hbest with heq | hlt
  · refine ⟨Nat.le_of_eq (congrArg List.length heq.symm), fun _ => ?_⟩
    rw [text, ← heq, String.ofList_toList]
  · exact ⟨Nat.le_of_lt hlt, fun heq => absurd heq (Nat.ne_of_lt hlt)⟩

/-- A bracket around a key that can stand bare, and zeros in front of an index. -/
theorem length_text_le_respelled :
    let t := "[\"a\"][007].\""
    let p : Path := [.key "a", .index 7, .key "\""]
    parse t = .ok p ∧ text p = "a[7].\"" ∧ parse "a[7].\"" = .ok p ∧
      "a[7].\"".length ≤ t.length ∧ ("a[7].\"".length = t.length → t = "a[7].\"") := by
  intro t p
  have hparse : parse t = .ok p := by decide +kernel
  have htext : text p = "a[7].\"" := by decide +kernel
  have hshort := length_text_le hparse
  rw [htext] at hshort
  exact ⟨hparse, htext, hshort⟩

end DocPath.Path

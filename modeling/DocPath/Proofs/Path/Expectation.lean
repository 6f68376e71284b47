import DocPath.Proofs.Path.Error

/-!
# What an error can expect

In every round of the loop over atoms but the first, the text at hand is at its end or starts with
a delimiter: a name is taken as long as possible, and behind a bracket nothing but a dot and a
bracket is let through. So the loop never finds two atoms that touch, and brackets and quotes are
read only where they stand. The three checks for that never fail. All other expectations are those
of some error.
-/

namespace DocPath

/-- The expectations of checks that are made where they are met already. -/
def Expectation.metBefore : List Expectation := [.separator, .openBracket, .openQuote]

/-- The error comes from none of these checks. -/
def PathError.IsGenuine {Place : Type} (e : PathError Place) : Prop :=
  ∀ x ∈ e.expectation?, x ∉ Expectation.metBefore

namespace Path

variable {first : Bool} {cs : List Char} {e : ReadError}

theorem isGenuine_unexpected {x : Expectation} (hx : x ∉ Expectation.metBefore)
    (cs : List Char) : (unexpected x cs).IsGenuine := by
  intro x' hx'
  cases cs with
  | nil =>
      cases hx'
      exact hx
  | cons c rest =>
      cases hx'
      exact hx

/-! ## Readers of atoms -/

theorem isGenuine_of_readIdentifier (h : readIdentifier cs = .error e) : e.IsGenuine := by
  obtain ⟨rfl, -⟩ := readIdentifier_eq_error h
  exact isGenuine_unexpected (by decide) cs

theorem BreaksQuoted.isGenuine (h : BreaksQuoted cs e) : e.IsGenuine := by
  intro x hx
  cases h with
  | ended spelled =>
      cases hx
      decide
  | endedEscape spelled =>
      cases hx
      decide
  | escape spelled plain => cases hx

theorem isGenuine_of_readIndex (h : readIndex cs = .error e) : e.IsGenuine := by
  obtain ⟨digits, rest, -, -, -, -, rfl⟩ := readIndex_eq_error h
  intro x hx
  cases hx

/-- The opening quote is there: the content of a bracket is read as a key only if it starts so. -/
theorem isGenuine_of_readContent (h : readContent cs = .error e) : e.IsGenuine := by
  cases cs with
  | nil =>
      cases h
      exact isGenuine_unexpected (by decide) []
  | cons c tail =>
      by_cases hquote : c = '"'
      · subst hquote
        rw [readContent_quote] at h
        exact (breaksQuoted_of_readQuoted (map_eq_error_iff.1 h)).isGenuine
      · cases hdigit : c.isDigit with
        | true =>
            rw [readContent_digit hdigit] at h
            exact isGenuine_of_readIndex (map_eq_error_iff.1 h)
        | false =>
            rw [readContent_other hquote hdigit] at h
            cases h
            exact isGenuine_unexpected (by decide) (c :: tail)

theorem isGenuine_of_readBracket (h : readBracket ('[' :: cs) = .error e) : e.IsGenuine := by
  unfold readBracket at h
  rcases bind_eq_error_iff.1 h with hopen | ⟨inner, hopen, h⟩
  · exact absurd rfl ((expect_eq_error_iff.1 hopen).2 '[' rfl)
  · rcases bind_eq_error_iff.1 h with hcontent | ⟨⟨s, rest⟩, hcontent, h⟩
    · exact isGenuine_of_readContent hcontent
    · rcases bind_eq_error_iff.1 h with hclose | ⟨_, _, h⟩
      · rw [(expect_eq_error_iff.1 hclose).1]
        exact isGenuine_unexpected (by decide) rest
      · contradiction

/-! ## The loop over atoms -/

/-- Where a round of the loop starts, but for the first one: no name goes on there. -/
def IsJoint (first : Bool) (cs : List Char) : Prop := first = false → Stops (!isDelimiter ·) cs

theorem isJoint_true (cs : List Char) : IsJoint true cs := by
  rintro ⟨⟩

theorem isJoint_of_atBoundary (h : atBoundary cs = true) : IsJoint false cs := by
  intro _ c hc
  cases cs with
  | nil => cases hc
  | cons d rest =>
      cases hc
      have hd : c = '.' ∨ c = '[' := by simpa [atBoundary] using h
      rcases hd with rfl | rfl
      · rfl
      · rfl

theorem isJoint_of_readIdentifier {name : String} {rest : List Char}
    (h : readIdentifier cs = .ok (name, rest)) : IsJoint false rest := by
  obtain ⟨word, -, -, hstops, -⟩ := readIdentifier_eq_ok_iff.1 h
  exact fun _ => hstops

/-- From a joint the loop comes to joints only, and each of its errors is genuine. -/
theorem isGenuine_of_readSegments (hjoint : IsJoint first cs)
    (h : readSegments first cs = .error e) : e.IsGenuine := by
  fun_induction readSegments first cs generalizing e with
  | case1 => contradiction
  | case2 first tail e' hread =>
      cases h
      exact isGenuine_of_readBracket hread
  | case3 first tail s rest hboundary hread ih =>
      exact ih (isJoint_of_atBoundary hboundary) (map_eq_error_iff.1 h)
  | case4 first tail s rest hboundary hread =>
      cases h
      exact isGenuine_unexpected (by decide) rest
  | case5 tail =>
      cases h
      rintro x ⟨⟩
  | case6 first tail hfirst e' hread =>
      cases h
      exact isGenuine_of_readIdentifier hread
  | case7 first tail hfirst name rest hread _ ih =>
      exact ih (isJoint_of_readIdentifier hread) (map_eq_error_iff.1 h)
  | case8 first tail =>
      cases h
      rintro x ⟨⟩
  | case9 c tail _ _ _ e' hread =>
      cases h
      exact isGenuine_of_readIdentifier hread
  | case10 c tail _ _ _ name rest hread ih =>
      exact ih (isJoint_of_readIdentifier hread) (map_eq_error_iff.1 h)
  | case11 first c tail hbracket hdot hclose hfirst =>
      -- Two atoms would touch here: a character that is no delimiter is at a joint.
      have hdelimiter := hjoint (by simpa using hfirst) c rfl
      simp [isDelimiter, hbracket, hdot, hclose] at hdelimiter

theorem isGenuine_of_parse {t : String} {e : PathError Nat} (h : parse t = .error e) :
    e.IsGenuine := by
  obtain ⟨e', hread, rfl⟩ := mapError_eq_error_iff.1 h
  have hgenuine := isGenuine_of_readSegments (isJoint_true t.toList) hread
  rwa [PathError.IsGenuine, PathError.expectation?_map]

/-- No error expects a separator between atoms, the opening of a bracket or that of a quoted key.
Everything else is expected by the error of some text. -/
theorem exists_parse_error_expecting_iff (x : Expectation) :
    (∃ t e, parse t = .error e ∧ e.expectation? = some x) ↔
      x.text ∉ ["'.' or '['", "'['", "'\"'"] := by
  constructor
  · rintro ⟨t, e, hparse, hx⟩
    have hgenuine : x ∉ Expectation.metBefore := isGenuine_of_parse hparse x hx
    revert hgenuine
    cases x <;> decide
  · intro hx
    cases x with
    | separator | openBracket | openQuote => exact absurd hx (by decide)
    | boundary => exact ⟨"[0]a", .unexpectedChar 3 'a' .boundary, by decide +kernel, rfl⟩
    | identifier => exact ⟨"a.", .unexpectedEnd .identifier, by decide +kernel, rfl⟩
    | closeBracket => exact ⟨"[0", .unexpectedEnd .closeBracket, by decide +kernel, rfl⟩
    | bracketContent => exact ⟨"[", .unexpectedEnd .bracketContent, by decide +kernel, rfl⟩
    | closeQuote => exact ⟨"[\"", .unexpectedEnd .closeQuote, by decide +kernel, rfl⟩
    | escaped => exact ⟨"[\"\\", .unexpectedEnd .escaped, by decide +kernel, rfl⟩

end Path

end DocPath

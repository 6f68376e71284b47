import DocPath.Proofs.Path.Grammar

/-!
# What a path text can start with

A text extends to a path text if some text behind it completes one. What may follow an atom does
not depend on the atom: neither on a bracket, nor on a name that has ended. Inside an atom the text
extends as long as its reader has found nothing to refuse.
-/

namespace DocPath.Path

/-- The text can be the start of what the loop over atoms reads. -/
def Extends (first : Bool) (cs : List Char) : Prop := ∃ more p, SpellsAtoms first (cs ++ more) p

variable {first : Bool} {text cs : List Char} {s : Segment}

/-- The start of a path text goes on to a text that is read. -/
theorem isExtendable_iff :
    IsExtendable cs ↔ ∃ more p, parse (String.ofList (cs ++ more)) = .ok p := by
  simp only [parse_eq_ok_iff, String.toList_ofList]
  exact Iff.rfl

theorem extends_of_spellsAtoms {p : Path} (h : SpellsAtoms first cs p) : Extends first cs :=
  ⟨[], p, by rwa [List.append_nil]⟩

theorem extends_nil (first : Bool) : Extends first [] := extends_of_spellsAtoms (.nil first)

theorem Extends.of_append {more : List Char} (h : Extends first (cs ++ more)) :
    Extends first cs := by
  obtain ⟨more', p, hspells⟩ := h
  rw [List.append_assoc] at hspells
  exact ⟨more ++ more', p, hspells⟩

theorem Extends.exists_readSegments (h : Extends first cs) :
    ∃ more p, readSegments first (cs ++ more) = .ok p := by
  obtain ⟨more, p, hspells⟩ := h
  exact ⟨more, p, readSegments_of_spellsAtoms hspells⟩

/-- A character that every text is refused for does not extend. -/
theorem not_extends_of_error {c : Char} {e : List Char → ReadError}
    (h : ∀ tail, readSegments first (c :: tail) = .error (e tail)) : ¬Extends first [c] := by
  intro hext
  obtain ⟨more, p, hread⟩ := hext.exists_readSegments
  rw [List.cons_append, h] at hread
  contradiction

theorem readSegments_close (first : Bool) (tail : List Char) :
    readSegments first (']' :: tail) = .error (.unmatchedBracket (']' :: tail)) := by
  rw [readSegments, if_neg (by decide), if_neg (by decide), if_pos rfl]

theorem readSegments_leadingDot (tail : List Char) :
    readSegments true ('.' :: tail) = .error .leadingDot := by
  rw [readSegments, if_neg (by decide), if_pos rfl, if_pos rfl]

/-! ## Behind an atom -/

theorem SpellsBracket.extends (h : SpellsBracket text s) (first : Bool) : Extends first text := by
  have hspells : SpellsAtoms first (text ++ []) [s] := .bracket h .nil
  rw [List.append_nil] at hspells
  exact extends_of_spellsAtoms hspells

/-- What may follow a bracket does not depend on the bracket. -/
theorem SpellsBracket.extends_append_iff (h : SpellsBracket text s) :
    Extends first (text ++ cs) ↔ Extends false cs := by
  constructor
  · intro hext
    obtain ⟨more, p, hread⟩ := hext.exists_readSegments
    rw [List.append_assoc] at hread
    have hbracket : readBracket (text ++ (cs ++ more)) = .ok (s, cs ++ more) :=
      readBracket_eq_ok_iff.2 ⟨text, h, rfl⟩
    obtain ⟨content, rfl⟩ := h.exists_eq_cons
    rw [List.cons_append] at hread hbracket
    rw [readSegments_bracket, hbracket] at hread
    change (if atBoundary (cs ++ more) then _ else _) = _ at hread
    split at hread
    · obtain ⟨p', hrest, -⟩ := map_eq_ok_iff.1 hread
      exact ⟨more, p', readSegments_eq_ok_iff.1 hrest⟩
    · contradiction
  · rintro ⟨more, p, hrest⟩
    refine ⟨more, s :: p, ?_⟩
    rw [List.append_assoc]
    exact .bracket h hrest

/-- What may follow a name does not depend on the name, once it has ended. -/
theorem extends_of_named {word more : List Char} {p : Path} (hname : IsName word)
    (hstops : Stops (!isDelimiter ·) cs)
    (h : readIdentifier (word ++ (cs ++ more)) >>= (fun (name, rest) =>
      (readSegments false rest).map (.key name :: ·)) = .ok p) : Extends false cs := by
  by_cases hnil : cs = []
  · rw [hnil]
    exact extends_nil false
  · have hread : readIdentifier (word ++ (cs ++ more)) = .ok (String.ofList word, cs ++ more) :=
      readIdentifier_eq_ok_iff.2 ⟨word, hname, rfl, stops_append hnil hstops more, rfl⟩
    rw [hread] at h
    obtain ⟨p', hrest, -⟩ := map_eq_ok_iff.1 h
    exact ⟨more, p', readSegments_eq_ok_iff.1 hrest⟩

theorem IsName.extends_append_iff {word : List Char} (hname : IsName word)
    (hstops : Stops (!isDelimiter ·) cs) : Extends true (word ++ cs) ↔ Extends false cs := by
  constructor
  · intro hext
    obtain ⟨more, p, hread⟩ := hext.exists_readSegments
    obtain ⟨c, word, rfl⟩ := List.exists_cons_of_ne_nil hname.1
    rw [List.append_assoc, List.cons_append,
      readSegments_name (hname.2 c List.mem_cons_self), ← List.cons_append] at hread
    exact extends_of_named hname hstops hread
  · rintro ⟨more, p, hrest⟩
    refine ⟨more, .key (String.ofList word) :: p, ?_⟩
    rw [List.append_assoc]
    exact Spells.name hname hrest

theorem IsName.extends_dot_iff {word : List Char} (hname : IsName word)
    (hstops : Stops (!isDelimiter ·) cs) :
    Extends false ('.' :: (word ++ cs)) ↔ Extends false cs := by
  constructor
  · intro hext
    obtain ⟨more, p, hread⟩ := hext.exists_readSegments
    rw [List.cons_append, List.append_assoc, readSegments_dot] at hread
    exact extends_of_named hname hstops hread
  · rintro ⟨more, p, hrest⟩
    refine ⟨more, .key (String.ofList word) :: p, ?_⟩
    rw [List.cons_append, List.append_assoc]
    exact SpellsRest.name hname hrest

/-- Behind an atom a path text goes on with a dot or a bracket, if at all. -/
theorem Extends.atBoundary (h : Extends false cs) : atBoundary cs = true := by
  obtain ⟨more, p, hspells⟩ := h
  have hboundary := SpellsRest.atBoundary hspells
  cases cs with
  | nil => rfl
  | cons c cs => exact hboundary

/-! ## Inside a name -/

theorem extends_dot : Extends false ['.'] := by
  have hname : IsName ['a'] := ⟨by simp, List.forall_mem_singleton.2 (by decide)⟩
  have hspells : SpellsRest ('.' :: (['a'] ++ [])) [.key (String.ofList ['a'])] :=
    .name hname .nil
  exact ⟨['a'], _, hspells⟩

theorem not_extends_dot {c : Char} (hc : isDelimiter c = true) : ¬Extends false ['.', c] := by
  intro hext
  obtain ⟨more, p, hread⟩ := hext.exists_readSegments
  rw [List.cons_append, readSegments_dot] at hread
  obtain ⟨⟨name, rest⟩, hname, -⟩ := bind_eq_ok_iff.1 hread
  obtain ⟨word, ⟨hne, hplain⟩, hsplit, -⟩ := readIdentifier_eq_ok_iff.1 hname
  obtain ⟨d, word, rfl⟩ := List.exists_cons_of_ne_nil hne
  obtain ⟨rfl, -⟩ := List.cons.inj hsplit
  rw [hplain c List.mem_cons_self] at hc
  contradiction

/-! ## Inside a bracket -/

/-- The start of a bracket goes on to a bracket. -/
theorem Extends.exists_readContent (h : Extends first ('[' :: cs)) :
    ∃ more s rest, readContent (cs ++ more) = .ok (s, ']' :: rest) := by
  obtain ⟨more, p, hread⟩ := h.exists_readSegments
  rw [List.cons_append, readSegments_bracket] at hread
  obtain ⟨⟨s, rest⟩, hbracket, -⟩ := bind_eq_ok_iff.1 hread
  obtain ⟨text, hspells, hsplit⟩ := readBracket_eq_ok_iff.1 hbracket
  exact ⟨more, s, rest, readContent_eq_ok_iff.2 ⟨text, hspells, hsplit⟩⟩

theorem extends_openBracket (first : Bool) : Extends first ['['] := by
  have hzero : SpellsBracket ('[' :: (['0'] ++ [']'])) (.index 0) :=
    .index (by decide) (List.forall_mem_singleton.2 rfl) (by decide)
  have hext : Extends first (['['] ++ ['0', ']']) := hzero.extends first
  exact hext.of_append

/-- No number that starts with digits of more than 64 bits is an index. -/
theorem not_extends_of_large {digits : List Char} (hdigits : ∀ d ∈ digits, d.isDigit = true)
    (hlarge : UInt64.size ≤ decimalValue digits) : ¬Extends first ('[' :: digits) := by
  intro hext
  obtain ⟨more, s, rest, hread⟩ := hext.exists_readContent
  cases digits with
  | nil => exact absurd hlarge (by decide)
  | cons d digits =>
      rw [List.cons_append, readContent_digit (hdigits d List.mem_cons_self),
        ← List.cons_append] at hread
      obtain ⟨⟨i, rest'⟩, hindex, -⟩ := map_eq_ok_iff.1 hread
      obtain ⟨all, hsplit, hall, hstops, hsmall, -⟩ := readIndex_eq_ok_iff.1 hindex
      have htake := (takeWhile_dropWhile_iff.2 ⟨hsplit, hall, hstops⟩).1
      rw [List.takeWhile_append_of_pos hdigits] at htake
      have hvalue := decimalValue_le_append (d :: digits) (more.takeWhile Char.isDigit)
      rw [htake] at hvalue
      omega

theorem SpellsQuoted.append {text' key key' : List Char} (h : SpellsQuoted text key)
    (h' : SpellsQuoted text' key') : SpellsQuoted (text ++ text') (key ++ key') := by
  induction h with
  | nil => exact h'
  | char plain _ ih => exact .char plain ih
  | escaped special _ ih => exact .escaped special ih

/-- Behind whatever can stand between quotes, an escape can begin. -/
theorem SpellsQuoted.extends_escape {key : List Char} (h : SpellsQuoted text key) (first : Bool) :
    Extends first ('[' :: '"' :: (text ++ ['\\'])) := by
  have hquote : SpellsQuoted (text ++ ['\\', '"']) (key ++ ['"']) :=
    h.append (.escaped (.inl rfl) .nil)
  have hext : Extends first (('[' :: '"' :: (text ++ ['\\'])) ++ ['"', '"', ']']) := by
    simpa using (SpellsBracket.key hquote).extends first
  exact hext.of_append

theorem readQuoted_invalid {key : List Char} {c : Char} (h : SpellsQuoted text key)
    (plain : ¬(c = '"' ∨ c = '\\')) (rest : List Char) :
    readQuoted (text ++ '\\' :: c :: rest) = .error (.invalidEscape ('\\' :: c :: rest) c) := by
  induction h with
  | nil => rw [List.nil_append, readQuoted, if_neg plain]
  | char plain' _ ih =>
      rw [List.cons_append, readQuoted_plain plain', ih]
      rfl
  | escaped special _ ih =>
      rw [List.cons_append, List.cons_append, readQuoted_escaped special, ih]
      rfl

/-- A backslash escapes a quote or a backslash and nothing else. -/
theorem SpellsQuoted.not_extends {key : List Char} {c : Char} (h : SpellsQuoted text key)
    (plain : ¬(c = '"' ∨ c = '\\')) : ¬Extends first ('[' :: '"' :: (text ++ ['\\', c])) := by
  intro hext
  obtain ⟨more, s, rest, hread⟩ := hext.exists_readContent
  rw [List.cons_append, readContent_quote] at hread
  obtain ⟨⟨key', rest'⟩, hquoted, -⟩ := map_eq_ok_iff.1 hread
  rw [List.append_assoc] at hquoted
  exact absurd (hquoted.symm.trans (readQuoted_invalid h plain more)) (by simp)

end DocPath.Path

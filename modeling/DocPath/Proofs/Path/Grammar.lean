import DocPath.Path.Grammar
import DocPath.Proofs.Run

/-!
# The reader reads the grammar

Every reader of an atom answers exactly when the text at hand starts with a spelling of what it
reads, and leaves the text behind that spelling. The loop over atoms is first put into equations,
one for each kind of first character; soundness follows the recursion of the loop, completeness
the derivation of the text.
-/

namespace DocPath.Path

/-! ## Readers of atoms -/

theorem expect_eq_ok_iff {c : Char} {e : Expectation} {cs rest : List Char} :
    expect c e cs = .ok rest ↔ cs = c :: rest := by
  cases cs with
  | nil => simp [expect]
  | cons d tail =>
      by_cases hd : d = c
      · simp [expect, hd]
      · simp [expect, hd]

theorem readIdentifier_eq_ok_iff {cs rest : List Char} {name : String} :
    readIdentifier cs = .ok (name, rest) ↔
      ∃ word, IsName word ∧ cs = word ++ rest ∧ Stops (!isDelimiter ·) rest ∧
        name = String.ofList word := by
  constructor
  · intro h
    unfold readIdentifier at h
    split at h
    · contradiction
    · rename_i c run hrun
      cases h
      obtain ⟨hsplit, hplain, hstops⟩ := takeWhile_dropWhile_iff.1 ⟨hrun, rfl⟩
      refine ⟨c :: run, ⟨List.cons_ne_nil c run, ?_⟩, hsplit, hstops, rfl⟩
      simpa using hplain
  · rintro ⟨word, ⟨hne, hplain⟩, hsplit, hstops, rfl⟩
    obtain ⟨htake, hdrop⟩ :=
      takeWhile_dropWhile_iff.2 ⟨hsplit, by simpa using hplain, hstops⟩
    unfold readIdentifier
    rw [htake, hdrop]
    cases word with
    | nil => contradiction
    | cons c run => rfl

theorem readQuoted_quote (rest : List Char) : readQuoted ('"' :: rest) = .ok ([], rest) := by
  simp [readQuoted]

theorem readQuoted_plain {c : Char} (hc : c ≠ '"' ∧ c ≠ '\\') (rest : List Char) :
    readQuoted (c :: rest) =
      (readQuoted rest).map fun (key, rest') => (c :: key, rest') := by
  rw [readQuoted]
  · rw [if_neg hc.1]
  · simp [hc.2]
  · simp [hc.2]

theorem readQuoted_escaped {c : Char} (hc : c = '"' ∨ c = '\\') (rest : List Char) :
    readQuoted ('\\' :: c :: rest) =
      (readQuoted rest).map fun (key, rest') => (c :: key, rest') := by
  rw [readQuoted, if_pos hc]

theorem spellsQuoted_of_readQuoted {cs key rest : List Char}
    (h : readQuoted cs = .ok (key, rest)) :
    ∃ text, SpellsQuoted text key ∧ cs = text ++ '"' :: rest := by
  fun_induction readQuoted cs generalizing key with
  | case1 => contradiction
  | case2 => contradiction
  | case3 c tail hc ih =>
      obtain ⟨⟨inner, rest'⟩, hread, heq⟩ := map_eq_ok_iff.1 h
      cases heq
      obtain ⟨text, hspells, rfl⟩ := ih hread
      exact ⟨'\\' :: c :: text, .escaped hc hspells, rfl⟩
  | case4 => contradiction
  | case5 =>
      cases h
      exact ⟨[], .nil, rfl⟩
  | case6 c tail hlone hpair hc ih =>
      obtain ⟨⟨inner, rest'⟩, hread, heq⟩ := map_eq_ok_iff.1 h
      cases heq
      obtain ⟨text, hspells, rfl⟩ := ih hread
      have hslash : c ≠ '\\' := by
        -- Behind a backslash there is a character: the closing quote is still to come.
        rintro rfl
        cases text with
        | nil => exact hpair _ _ rfl rfl
        | cons d more => exact hpair _ _ rfl rfl
      exact ⟨c :: text, .char ⟨hc, hslash⟩ hspells, rfl⟩

theorem readQuoted_of_spellsQuoted {text key : List Char} (h : SpellsQuoted text key)
    (rest : List Char) : readQuoted (text ++ '"' :: rest) = .ok (key, rest) := by
  induction h with
  | nil => exact readQuoted_quote rest
  | char plain _ ih =>
      rw [List.cons_append, readQuoted_plain plain, ih]
      rfl
  | escaped special _ ih =>
      rw [List.cons_append, List.cons_append, readQuoted_escaped special, ih]
      rfl

theorem readIndex_eq_ok_iff {cs rest : List Char} {i : UInt64} :
    readIndex cs = .ok (i, rest) ↔
      ∃ digits, cs = digits ++ rest ∧ (∀ d ∈ digits, d.isDigit = true) ∧
        Stops Char.isDigit rest ∧ decimalValue digits < UInt64.size ∧
        i = UInt64.ofNat (decimalValue digits) := by
  constructor
  · intro h
    unfold readIndex at h
    dsimp only at h
    split at h
    · rename_i hsmall
      cases h
      obtain ⟨hsplit, hdigits, hstops⟩ :=
        (takeWhile_dropWhile_iff (p := Char.isDigit) (l := cs)).1 ⟨rfl, rfl⟩
      exact ⟨_, hsplit, hdigits, hstops, hsmall, rfl⟩
    · contradiction
  · rintro ⟨digits, hsplit, hdigits, hstops, hsmall, rfl⟩
    obtain ⟨htake, hdrop⟩ := takeWhile_dropWhile_iff.2 ⟨hsplit, hdigits, hstops⟩
    unfold readIndex
    rw [htake, hdrop]
    exact if_pos hsmall

/-! ## Brackets -/

theorem readContent_quote (cs : List Char) :
    readContent ('"' :: cs) =
      (readQuoted cs).map fun (key, rest) => (.key (String.ofList key), rest) := by
  cases h : readQuoted cs with
  | error e => simp [readContent, expect, h, bind, Except.bind, Except.map]
  | ok p => simp [readContent, expect, h, bind, Except.bind, Except.map, pure, Except.pure]

theorem readContent_digit {c : Char} (hc : c.isDigit = true) (cs : List Char) :
    readContent (c :: cs) = (readIndex (c :: cs)).map fun (i, rest) => (.index i, rest) := by
  have hquote : c ≠ '"' := by
    rintro rfl
    contradiction
  cases h : readIndex (c :: cs) with
  | error e => simp [readContent, hquote, hc, h, bind, Except.bind, Except.map]
  | ok p => simp [readContent, hquote, hc, h, bind, Except.bind, Except.map, pure, Except.pure]

theorem readContent_other {c : Char} (hquote : c ≠ '"') (hdigit : c.isDigit = false)
    (cs : List Char) : readContent (c :: cs) = .error (unexpected .bracketContent (c :: cs)) := by
  simp [readContent, hquote, hdigit]

theorem readContent_quoted {text key : List Char} (h : SpellsQuoted text key)
    (rest : List Char) :
    readContent ('"' :: (text ++ '"' :: rest)) = .ok (.key (String.ofList key), rest) := by
  rw [readContent_quote, readQuoted_of_spellsQuoted h]
  rfl

theorem readContent_digits {digits rest : List Char} (hne : digits ≠ [])
    (hdigits : ∀ d ∈ digits, d.isDigit = true) (hstops : Stops Char.isDigit rest)
    (hsmall : decimalValue digits < UInt64.size) :
    readContent (digits ++ rest) =
      .ok (.index (UInt64.ofNat (decimalValue digits)), rest) := by
  have hread : readIndex (digits ++ rest) = .ok (UInt64.ofNat (decimalValue digits), rest) :=
    readIndex_eq_ok_iff.2 ⟨digits, rfl, hdigits, hstops, hsmall, rfl⟩
  obtain ⟨d, digits, rfl⟩ := List.exists_cons_of_ne_nil hne
  rw [List.cons_append] at hread ⊢
  rw [readContent_digit (hdigits d List.mem_cons_self), hread]
  rfl

/-- What was read of a bracket up to its end spells a segment, and is read again in front of the
same character. -/
theorem readContent_eq_ok {cs rest : List Char} {s : Segment}
    (h : readContent cs = .ok (s, rest)) :
    ∃ content, cs = content ++ rest ∧ SpellsBracket ('[' :: (content ++ [']'])) s ∧
      ∀ rest', rest'.head? = rest.head? → readContent (content ++ rest') = .ok (s, rest') := by
  cases cs with
  | nil => contradiction
  | cons c tail =>
      by_cases hquote : c = '"'
      · subst hquote
        rw [readContent_quote] at h
        obtain ⟨⟨key, rest'⟩, hread, heq⟩ := map_eq_ok_iff.1 h
        cases heq
        obtain ⟨text, hspells, rfl⟩ := spellsQuoted_of_readQuoted hread
        refine ⟨'"' :: (text ++ ['"']), by simp, ?_, fun rest' _ => ?_⟩
        · simpa using SpellsBracket.key hspells
        · simpa using readContent_quoted hspells rest'
      · cases hdigit : c.isDigit with
        | false =>
            rw [readContent_other hquote hdigit] at h
            contradiction
        | true =>
            rw [readContent_digit hdigit] at h
            obtain ⟨⟨i, rest'⟩, hread, heq⟩ := map_eq_ok_iff.1 h
            cases heq
            obtain ⟨digits, hsplit, hdigits, hstops, hsmall, rfl⟩ := readIndex_eq_ok_iff.1 hread
            have hne : digits ≠ [] := by
              rintro rfl
              rw [List.nil_append] at hsplit
              rw [← hsplit, stops_cons, hdigit] at hstops
              contradiction
            exact ⟨digits, hsplit, .index hne hdigits hsmall, fun rest' hsame =>
              readContent_digits hne hdigits ((stops_congr hsame).2 hstops) hsmall⟩

/-- The content of a bracket is read up to the closing character exactly when bracket and content
spell the segment. -/
theorem readContent_eq_ok_iff {cs rest : List Char} {s : Segment} :
    readContent cs = .ok (s, ']' :: rest) ↔
      ∃ text, SpellsBracket text s ∧ '[' :: cs = text ++ rest := by
  constructor
  · intro h
    obtain ⟨content, rfl, hspells, -⟩ := readContent_eq_ok h
    exact ⟨_, hspells, by simp⟩
  · rintro ⟨text, hspells, hsplit⟩
    cases hspells with
    | @key quoted key hquoted =>
        have hcs : cs = '"' :: (quoted ++ '"' :: ']' :: rest) := by simpa using hsplit
        rw [hcs]
        exact readContent_quoted hquoted _
    | @index digits hne hdigits hsmall =>
        have hcs : cs = digits ++ ']' :: rest := by simpa using hsplit
        rw [hcs]
        exact readContent_digits hne hdigits (stops_cons.2 (by decide)) hsmall

theorem SpellsBracket.exists_eq_cons {text : List Char} {s : Segment}
    (h : SpellsBracket text s) : ∃ content, text = '[' :: content := by
  cases h with
  | index => exact ⟨_, rfl⟩
  | key => exact ⟨_, rfl⟩

theorem readBracket_eq_ok_iff {cs rest : List Char} {s : Segment} :
    readBracket cs = .ok (s, rest) ↔ ∃ text, SpellsBracket text s ∧ cs = text ++ rest := by
  unfold readBracket
  constructor
  · intro h
    obtain ⟨inner, hopen, h⟩ := bind_eq_ok_iff.1 h
    obtain ⟨⟨s', behind⟩, hcontent, h⟩ := bind_eq_ok_iff.1 h
    obtain ⟨rest', hclose, h⟩ := bind_eq_ok_iff.1 h
    cases h
    rw [expect_eq_ok_iff.1 hopen]
    rw [expect_eq_ok_iff.1 hclose] at hcontent
    exact readContent_eq_ok_iff.1 hcontent
  · rintro ⟨text, hspells, rfl⟩
    obtain ⟨content, rfl⟩ := hspells.exists_eq_cons
    have hcontent : readContent (content ++ rest) = .ok (s, ']' :: rest) :=
      readContent_eq_ok_iff.2 ⟨_, hspells, rfl⟩
    refine bind_eq_ok_iff.2 ⟨content ++ rest, expect_eq_ok_iff.2 rfl, ?_⟩
    refine bind_eq_ok_iff.2 ⟨(s, ']' :: rest), hcontent, ?_⟩
    exact bind_eq_ok_iff.2 ⟨rest, expect_eq_ok_iff.2 rfl, rfl⟩

/-! ## The loop over atoms -/

theorem readSegments_nil (first : Bool) : readSegments first [] = .ok [] := by
  rw [readSegments]

theorem readSegments_bracket (first : Bool) (tail : List Char) :
    readSegments first ('[' :: tail) =
      readBracket ('[' :: tail) >>= fun (s, rest) =>
        if atBoundary rest then (readSegments false rest).map (s :: ·)
        else .error (unexpected .boundary rest) := by
  rw [readSegments, if_pos rfl]
  split
  · rename_i hread
    rw [hread]
    rfl
  · rename_i hread
    rw [hread]
    rfl

theorem readSegments_dot (tail : List Char) :
    readSegments false ('.' :: tail) =
      readIdentifier tail >>= fun (name, rest) =>
        (readSegments false rest).map (.key name :: ·) := by
  rw [readSegments, if_neg (by decide), if_pos rfl, if_neg (by decide)]
  split
  · rename_i hread
    rw [hread]
    rfl
  · rename_i hread
    rw [hread]
    rfl

theorem readSegments_name {c : Char} (hc : isDelimiter c = false) (tail : List Char) :
    readSegments true (c :: tail) =
      readIdentifier (c :: tail) >>= fun (name, rest) =>
        (readSegments false rest).map (.key name :: ·) := by
  have hplain : (c ≠ '.' ∧ c ≠ '[') ∧ c ≠ ']' := by simpa [isDelimiter] using hc
  rw [readSegments, if_neg hplain.1.2, if_neg hplain.1.1, if_neg hplain.2, if_pos rfl]
  split
  · rename_i hread
    rw [hread]
    rfl
  · rename_i hread
    rw [hread]
    rfl

/-! ## Texts and paths -/

/-- What the loop over atoms reads: a whole path, or what follows its first segment. -/
def SpellsAtoms : Bool → List Char → Path → Prop
  | true => Spells
  | false => SpellsRest

theorem SpellsAtoms.nil (first : Bool) : SpellsAtoms first [] [] := by
  cases first with
  | true => exact Spells.root
  | false => exact SpellsRest.nil

theorem SpellsAtoms.bracket {first : Bool} {text cs : List Char} {s : Segment} {p : Path}
    (h : SpellsBracket text s) (rest : SpellsRest cs p) :
    SpellsAtoms first (text ++ cs) (s :: p) := by
  cases first with
  | true => exact Spells.bracket h rest
  | false => exact SpellsRest.bracket h rest

theorem SpellsRest.atBoundary {cs : List Char} {p : Path} (h : SpellsRest cs p) :
    atBoundary cs = true := by
  cases h with
  | nil => rfl
  | name => rfl
  | bracket hbracket _ =>
      obtain ⟨content, rfl⟩ := hbracket.exists_eq_cons
      rfl

theorem stops_of_atBoundary {cs : List Char} (h : atBoundary cs = true) :
    Stops (!isDelimiter ·) cs := by
  cases cs with
  | nil => exact stops_nil
  | cons c cs =>
      have hc : c = '.' ∨ c = '[' := by simpa [atBoundary] using h
      rw [stops_cons]
      rcases hc with rfl | rfl
      · rfl
      · rfl

theorem spellsAtoms_of_readSegments {first : Bool} {cs : List Char} {p : Path}
    (h : readSegments first cs = .ok p) : SpellsAtoms first cs p := by
  -- The cases are the ways through the loop; most of them refuse the text.
  fun_induction readSegments first cs generalizing p with
  | case1 first =>
      cases h
      exact .nil first
  | case2 => contradiction
  | case3 first tail s rest _ hread ih =>
      obtain ⟨p', hrest, rfl⟩ := map_eq_ok_iff.1 h
      obtain ⟨text, hspells, hsplit⟩ := readBracket_eq_ok_iff.1 hread
      rw [hsplit]
      exact .bracket hspells (ih hrest)
  | case4 => contradiction
  | case5 => contradiction
  | case6 => contradiction
  | case7 first tail hfirst name rest hread _ ih =>
      obtain ⟨p', hrest, rfl⟩ := map_eq_ok_iff.1 h
      obtain ⟨word, hname, rfl, -, rfl⟩ := readIdentifier_eq_ok_iff.1 hread
      obtain rfl : first = false := by simpa using hfirst
      exact SpellsRest.name hname (ih hrest)
  | case8 => contradiction
  | case9 => contradiction
  | case10 c tail _ _ _ name rest hread ih =>
      obtain ⟨p', hrest, rfl⟩ := map_eq_ok_iff.1 h
      obtain ⟨word, hname, hsplit, -, rfl⟩ := readIdentifier_eq_ok_iff.1 hread
      rw [hsplit]
      exact Spells.name hname (ih hrest)
  | case11 => contradiction

/-- A name in front of a well-spelled rest is read whole. -/
theorem readIdentifier_of_spellsRest {word cs : List Char} {p : Path} (hname : IsName word)
    (hrest : SpellsRest cs p) :
    readIdentifier (word ++ cs) = .ok (String.ofList word, cs) :=
  readIdentifier_eq_ok_iff.2
    ⟨word, hname, rfl, stops_of_atBoundary hrest.atBoundary, rfl⟩

theorem readSegments_of_spellsBracket {first : Bool} {text cs : List Char} {s : Segment}
    {p : Path} (hbracket : SpellsBracket text s) (hrest : SpellsRest cs p)
    (hread : readSegments false cs = .ok p) :
    readSegments first (text ++ cs) = .ok (s :: p) := by
  have hread' : readBracket (text ++ cs) = .ok (s, cs) :=
    readBracket_eq_ok_iff.2 ⟨text, hbracket, rfl⟩
  obtain ⟨content, rfl⟩ := hbracket.exists_eq_cons
  rw [List.cons_append] at hread' ⊢
  rw [readSegments_bracket, hread']
  change (if atBoundary cs then _ else _) = _
  rw [if_pos hrest.atBoundary, hread]
  rfl

theorem readSegments_of_spellsRest {cs : List Char} {p : Path} (h : SpellsRest cs p) :
    readSegments false cs = .ok p := by
  induction h with
  | nil => exact readSegments_nil false
  | name hname hrest ih =>
      rw [readSegments_dot, readIdentifier_of_spellsRest hname hrest]
      exact map_eq_ok_iff.2 ⟨_, ih, rfl⟩
  | bracket hbracket hrest ih => exact readSegments_of_spellsBracket hbracket hrest ih

theorem readSegments_of_spellsAtoms {first : Bool} {cs : List Char} {p : Path}
    (h : SpellsAtoms first cs p) : readSegments first cs = .ok p := by
  cases first with
  | false => exact readSegments_of_spellsRest h
  | true =>
      cases h with
      | root => exact readSegments_nil true
      | @name word cs p hname hrest =>
          have hread := readIdentifier_of_spellsRest hname hrest
          obtain ⟨hne, hplain⟩ := hname
          cases word with
          | nil => contradiction
          | cons c word =>
              rw [List.cons_append] at hread ⊢
              rw [readSegments_name (hplain c List.mem_cons_self), hread]
              exact map_eq_ok_iff.2 ⟨p, readSegments_of_spellsRest hrest, rfl⟩
      | bracket hbracket hrest =>
          exact readSegments_of_spellsBracket hbracket hrest (readSegments_of_spellsRest hrest)

theorem readSegments_eq_ok_iff {first : Bool} {cs : List Char} {p : Path} :
    readSegments first cs = .ok p ↔ SpellsAtoms first cs p :=
  ⟨spellsAtoms_of_readSegments, readSegments_of_spellsAtoms⟩

/-- A text spells one path at most. -/
theorem Spells.unique {cs : List Char} {p q : Path} (hp : Spells cs p) (hq : Spells cs q) :
    p = q := by
  have hread : readSegments true cs = .ok p := readSegments_of_spellsAtoms hp
  have hread' : readSegments true cs = .ok q := readSegments_of_spellsAtoms hq
  rw [hread] at hread'
  exact Except.ok.inj hread'

theorem parse_eq_ok_iff {t : String} {p : Path} :
    parse t = .ok p ↔ SpellsAtoms true t.toList p :=
  mapError_eq_ok_iff.trans readSegments_eq_ok_iff

/-- A text is read as a path exactly if the grammar derives it, and then as the path that it
spells; every other text is refused. -/
theorem parse_eq_ok_iff_spells (t : String) :
    (∀ p, parse t = .ok p ↔ Spells t.toList p) ∧
      ((∃ e, parse t = .error e) ↔ ¬∃ p, Spells t.toList p) := by
  refine ⟨fun p => parse_eq_ok_iff, ?_, ?_⟩
  · rintro ⟨e, herror⟩ ⟨p, hspells⟩
    have hok : parse t = .ok p := parse_eq_ok_iff.2 hspells
    rw [herror] at hok
    contradiction
  · intro hnone
    cases hread : parse t with
    | error e => exact ⟨e, rfl⟩
    | ok p => exact (hnone ⟨p, parse_eq_ok_iff.1 hread⟩).elim

end DocPath.Path

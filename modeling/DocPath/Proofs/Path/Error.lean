import Mathlib.Control.Monad.Basic
import DocPath.Proofs.Path.Extension

/-!
# Where a path text goes wrong

A text that is refused only because it ends could still become a path text. Every other error is
placed where this stops: the text in front of it can be the start of a path text, and no path text
goes on with what the error names. Each reader of atoms is shown to place its errors so; the loop
over atoms carries the places along, because what may follow an atom does not depend on it.
-/

namespace DocPath.Path

variable {first : Bool} {text cs : List Char} {s : Segment} {e : ReadError}

/-! ## Errors of the readers of atoms -/

theorem expect_eq_error_iff {c : Char} {expected : Expectation} :
    expect c expected cs = .error e ↔ e = unexpected expected cs ∧ ∀ d ∈ cs.head?, d ≠ c := by
  cases cs with
  | nil => simp [expect, eq_comm]
  | cons d tail =>
      by_cases hd : d = c
      · simp [expect, hd]
      · simp [expect, hd, Ne.symm hd, eq_comm]

theorem readIdentifier_eq_error (h : readIdentifier cs = .error e) :
    e = unexpected .identifier cs ∧ Stops (!isDelimiter ·) cs := by
  unfold readIdentifier at h
  split at h
  · rename_i hrun
    cases h
    obtain ⟨hsplit, -, hstops⟩ := takeWhile_dropWhile_iff.1 ⟨hrun, rfl⟩
    rw [List.nil_append] at hsplit
    rw [← hsplit] at hstops
    exact ⟨rfl, hstops⟩
  · contradiction

theorem readIndex_eq_error (h : readIndex cs = .error e) :
    ∃ digits rest, cs = digits ++ rest ∧ (∀ d ∈ digits, d.isDigit = true) ∧
      Stops Char.isDigit rest ∧ UInt64.size ≤ decimalValue digits ∧
      e = .indexOutOfRange cs (String.ofList digits) := by
  unfold readIndex at h
  dsimp only at h
  split at h
  · contradiction
  · rename_i hlarge
    cases h
    obtain ⟨hsplit, hdigits, hstops⟩ :=
      (takeWhile_dropWhile_iff (p := Char.isDigit) (l := cs)).1 ⟨rfl, rfl⟩
    exact ⟨_, _, hsplit, hdigits, hstops, Nat.le_of_not_lt hlarge, rfl⟩

/-- How the text behind an opening quote can fail: it ends, it ends behind a backslash, or it holds
a backslash that escapes nothing. -/
inductive BreaksQuoted : List Char → ReadError → Prop where
  | ended {text key : List Char} (spelled : SpellsQuoted text key) :
      BreaksQuoted text (.unexpectedEnd .closeQuote)
  | endedEscape {text key : List Char} (spelled : SpellsQuoted text key) :
      BreaksQuoted (text ++ ['\\']) (.unexpectedEnd .escaped)
  | escape {text key rest : List Char} {c : Char} (spelled : SpellsQuoted text key)
      (plain : ¬(c = '"' ∨ c = '\\')) :
      BreaksQuoted (text ++ '\\' :: c :: rest) (.invalidEscape ('\\' :: c :: rest) c)

theorem BreaksQuoted.char {c : Char} (hc : c ≠ '"' ∧ c ≠ '\\') (h : BreaksQuoted cs e) :
    BreaksQuoted (c :: cs) e := by
  cases h with
  | ended spelled => exact .ended (.char hc spelled)
  | endedEscape spelled => exact .endedEscape (.char hc spelled)
  | escape spelled plain => exact .escape (.char hc spelled) plain

theorem BreaksQuoted.escaped {c : Char} (hc : c = '"' ∨ c = '\\') (h : BreaksQuoted cs e) :
    BreaksQuoted ('\\' :: c :: cs) e := by
  cases h with
  | ended spelled => exact .ended (.escaped hc spelled)
  | endedEscape spelled => exact .endedEscape (.escaped hc spelled)
  | escape spelled plain => exact .escape (.escaped hc spelled) plain

theorem breaksQuoted_of_readQuoted (h : readQuoted cs = .error e) : BreaksQuoted cs e := by
  fun_induction readQuoted cs with
  | case1 =>
      cases h
      exact .ended .nil
  | case2 =>
      cases h
      exact .endedEscape .nil
  | case3 c tail hc ih => exact (ih (map_eq_error_iff.1 h)).escaped hc
  | case4 c tail hc =>
      cases h
      exact .escape .nil hc
  | case5 => contradiction
  | case6 c tail hlone hpair hc ih =>
      have hslash : c ≠ '\\' := by
        rintro rfl
        cases tail with
        | nil => exact hlone rfl rfl
        | cons d tail => exact hpair d tail rfl rfl
      exact (ih (map_eq_error_iff.1 h)).char ⟨hc, hslash⟩

/-! ## Errors in their places -/

/-- An error of a reader of `cs` is right about where `cs` stops being the start of a text with
`E`: it is placed behind a start that has `E`, and no start with what it names has it. -/
inductive Located (E : List Char → Prop) : List Char → ReadError → Prop where
  | ended {cs : List Char} (fits : E cs) (expected : Expectation) :
      Located E cs (.unexpectedEnd expected)
  | stray (before : List Char) {rest : List Char} {c : Char} (fits : E before)
      (unfit : ¬E (before ++ [c])) (expected : Expectation) :
      Located E (before ++ c :: rest) (.unexpectedChar (c :: rest) c expected)
  | dot {rest : List Char} (fits : E []) (unfit : ¬E ['.']) : Located E ('.' :: rest) .leadingDot
  | closing (before : List Char) {rest : List Char} (fits : E before)
      (unfit : ¬E (before ++ [']'])) :
      Located E (before ++ ']' :: rest) (.unmatchedBracket (']' :: rest))
  | escape (before : List Char) {rest : List Char} {c : Char} (fits : E (before ++ ['\\']))
      (unfit : ¬E (before ++ ['\\', c])) :
      Located E (before ++ '\\' :: c :: rest) (.invalidEscape ('\\' :: c :: rest) c)
  | index (before : List Char) {digits rest : List Char} (fits : E before)
      (run : ∀ d ∈ digits, d.isDigit = true) (maximal : Stops Char.isDigit rest)
      (large : UInt64.size ≤ decimalValue digits) (unfit : ¬E (before ++ digits)) :
      Located E (before ++ (digits ++ rest))
        (.indexOutOfRange (digits ++ rest) (String.ofList digits))

theorem located_unexpected {E : List Char → Prop} (before : List Char) (fits : E before)
    (unfit : ∀ c ∈ cs.head?, ¬E (before ++ [c])) (expected : Expectation) :
    Located E (before ++ cs) (unexpected expected cs) := by
  cases cs with
  | nil =>
      rw [List.append_nil]
      exact .ended fits expected
  | cons c rest => exact .stray before fits (unfit c rfl) expected

/-- Behind a text after which the same can follow, an error keeps its place. -/
theorem Located.behind {E E' : List Char → Prop} (h : Located E' cs e) (text : List Char)
    (hsame : ∀ start, start <+: cs → (E (text ++ start) ↔ E' start)) (hdot : E' ['.']) :
    Located E (text ++ cs) e := by
  cases h with
  | ended fits expected => exact .ended ((hsame cs (List.prefix_refl cs)).2 fits) expected
  | @stray before rest c fits unfit expected =>
      have hfits := hsame before (List.prefix_append before _)
      have hunfit := hsame (before ++ [c]) ⟨rest, by simp⟩
      rw [← List.append_assoc] at hunfit ⊢
      exact .stray _ (hfits.2 fits) (mt hunfit.1 unfit) expected
  | dot _ unfit => exact absurd hdot unfit
  | @closing before rest fits unfit =>
      have hfits := hsame before (List.prefix_append before _)
      have hunfit := hsame (before ++ [']']) ⟨rest, by simp⟩
      rw [← List.append_assoc] at hunfit ⊢
      exact .closing _ (hfits.2 fits) (mt hunfit.1 unfit)
  | @escape before rest c fits unfit =>
      have hfits := hsame (before ++ ['\\']) ⟨c :: rest, by simp⟩
      have hunfit := hsame (before ++ ['\\', c]) ⟨rest, by simp⟩
      rw [← List.append_assoc] at hfits hunfit ⊢
      exact .escape _ (hfits.2 fits) (mt hunfit.1 unfit)
  | @index before digits rest fits run maximal large unfit =>
      have hfits := hsame before (List.prefix_append before _)
      have hunfit := hsame (before ++ digits) ⟨rest, by simp⟩
      rw [← List.append_assoc] at hunfit ⊢
      exact .index _ (hfits.2 fits) run maximal large (mt hunfit.1 unfit)

/-! ## Brackets -/

theorem BreaksQuoted.located (h : BreaksQuoted cs e) :
    Located (Extends first) ('[' :: '"' :: cs) e := by
  cases h with
  | ended spelled =>
      have hext : Extends first (('[' :: '"' :: cs) ++ ['\\']) := spelled.extends_escape first
      exact .ended hext.of_append _
  | endedEscape spelled => exact .ended (spelled.extends_escape first) _
  | @escape text key rest c spelled plain =>
      exact .escape ('[' :: '"' :: text) (spelled.extends_escape first)
        (spelled.not_extends plain)

theorem located_of_readContent (h : readContent cs = .error e) :
    Located (Extends first) ('[' :: cs) e := by
  have hopen := extends_openBracket first
  cases cs with
  | nil =>
      cases h
      exact located_unexpected ['['] hopen (by simp) .bracketContent
  | cons c tail =>
      by_cases hquote : c = '"'
      · subst hquote
        rw [readContent_quote] at h
        exact (breaksQuoted_of_readQuoted (map_eq_error_iff.1 h)).located
      · cases hdigit : c.isDigit with
        | true =>
            rw [readContent_digit hdigit] at h
            obtain ⟨digits, rest, hsplit, hdigits, hstops, hlarge, rfl⟩ :=
              readIndex_eq_error (map_eq_error_iff.1 h)
            rw [hsplit]
            exact .index ['['] hopen hdigits hstops hlarge
              (not_extends_of_large hdigits hlarge)
        | false =>
            rw [readContent_other hquote hdigit] at h
            cases h
            refine located_unexpected ['['] hopen (fun d hd hext => ?_) .bracketContent
            cases hd
            have hinside : Extends first ['[', c] := hext
            obtain ⟨more, s, rest, hread⟩ := hinside.exists_readContent
            rw [List.cons_append, readContent_other hquote hdigit] at hread
            contradiction

theorem located_of_expect {rest : List Char} (hcontent : readContent cs = .ok (s, rest))
    (h : expect ']' .closeBracket rest = .error e) : Located (Extends first) ('[' :: cs) e := by
  obtain ⟨content, rfl, hspells, hagain⟩ := readContent_eq_ok hcontent
  obtain ⟨rfl, hother⟩ := expect_eq_error_iff.1 h
  have hclosed : Extends first (('[' :: content) ++ [']']) := hspells.extends first
  refine located_unexpected ('[' :: content) hclosed.of_append (fun c hc hext => ?_) _
  have hinside : Extends first ('[' :: (content ++ [c])) := hext
  obtain ⟨more, s', rest', hread⟩ := hinside.exists_readContent
  rw [List.append_assoc, hagain ([c] ++ more) (Option.mem_def.1 hc).symm] at hread
  cases hread
  exact hother ']' hc rfl

theorem located_of_readBracket (h : readBracket ('[' :: cs) = .error e) :
    Located (Extends first) ('[' :: cs) e := by
  unfold readBracket at h
  rcases bind_eq_error_iff.1 h with hopen | ⟨inner, hopen, h⟩
  · exact absurd rfl ((expect_eq_error_iff.1 hopen).2 '[' rfl)
  · cases expect_eq_ok_iff.1 hopen
    rcases bind_eq_error_iff.1 h with hcontent | ⟨⟨s, rest⟩, hcontent, h⟩
    · exact located_of_readContent hcontent
    · rcases bind_eq_error_iff.1 h with hclose | ⟨_, _, h⟩
      · exact located_of_expect hcontent hclose
      · contradiction

/-! ## The loop over atoms -/

/-- A refused text is refused where it stops being the start of a text that the loop reads. -/
theorem located_of_readSegments (h : readSegments first cs = .error e) :
    Located (Extends first) cs e := by
  fun_induction readSegments first cs generalizing e with
  | case1 => contradiction
  | case2 first tail e' hread =>
      cases h
      exact located_of_readBracket hread
  | case3 first tail s rest _ hread ih =>
      obtain ⟨text, hspells, hsplit⟩ := readBracket_eq_ok_iff.1 hread
      rw [hsplit]
      have hbehind := ih (map_eq_error_iff.1 h)
      exact hbehind.behind text (fun _ _ => hspells.extends_append_iff) extends_dot
  | case4 first tail s rest hboundary hread =>
      cases h
      obtain ⟨text, hspells, hsplit⟩ := readBracket_eq_ok_iff.1 hread
      rw [hsplit]
      refine located_unexpected text (hspells.extends first) (fun c hc hext => ?_) .boundary
      have hc' : atBoundary [c] = true := (hspells.extends_append_iff.1 hext).atBoundary
      cases rest with
      | nil => cases hc
      | cons d rest =>
          cases hc
          exact hboundary hc'
  | case5 tail =>
      cases h
      exact .dot (extends_nil true) (not_extends_of_error readSegments_leadingDot)
  | case6 first tail hfirst e' hread =>
      cases h
      obtain rfl : first = false := by simpa using hfirst
      obtain ⟨rfl, hstops⟩ := readIdentifier_eq_error hread
      refine located_unexpected ['.'] extends_dot (fun c hc => ?_) .identifier
      exact not_extends_dot (by simpa using hstops c hc)
  | case7 first tail hfirst name rest hread _ ih =>
      obtain rfl : first = false := by simpa using hfirst
      obtain ⟨word, hname, rfl, hstops, rfl⟩ := readIdentifier_eq_ok_iff.1 hread
      refine (ih (map_eq_error_iff.1 h)).behind ('.' :: word) (fun start hstart => ?_) extends_dot
      exact hname.extends_dot_iff (stops_of_isPrefix hstops hstart)
  | case8 first tail =>
      cases h
      exact .closing [] (extends_nil first)
        (not_extends_of_error (readSegments_close first))
  | case9 c tail hbracket hdot hclose e' hread =>
      -- A name cannot fail at a character that it can start with.
      have hdelimiter := (readIdentifier_eq_error hread).2 c rfl
      simp [isDelimiter, hbracket, hdot, hclose] at hdelimiter
  | case10 c tail _ _ _ name rest hread ih =>
      obtain ⟨word, hname, hsplit, hstops, rfl⟩ := readIdentifier_eq_ok_iff.1 hread
      rw [hsplit]
      refine (ih (map_eq_error_iff.1 h)).behind word (fun start hstart => ?_) extends_dot
      exact hname.extends_append_iff (stops_of_isPrefix hstops hstart)
  | case11 first c tail hbracket hdot _ hfirst =>
      cases h
      obtain rfl : first = false := by simpa using hfirst
      refine located_unexpected [] (extends_nil false) (fun d hd hext => ?_) .separator
      cases hd
      have hc : c = '.' ∨ c = '[' := by simpa [atBoundary] using hext.atBoundary
      exact hc.elim hdot hbracket

/-! ## Offsets -/

theorem byteSize_append (before rest : List Char) :
    byteSize (before ++ rest) = byteSize before + byteSize rest := by
  induction before with
  | nil => exact (Nat.zero_add _).symm
  | cons c before ih =>
      rw [List.cons_append, byteSize, byteSize, ih, Nat.add_assoc]

/-- An error is right about the character `c` between `before` and `rest`: it names what stands
there, and no path text goes on with that behind `before`. -/
def Refutes (before : List Char) (c : Char) (rest : List Char) : PathError Nat → Prop
  | .unexpectedChar _ found _ => found = c ∧ ¬IsExtendable (before ++ [c])
  | .unexpectedEnd _ => False
  | .leadingDot => c = '.' ∧ ¬IsExtendable (before ++ [c])
  | .unmatchedBracket _ => c = ']' ∧ ¬IsExtendable (before ++ [c])
  | .invalidEscape _ found =>
    c = '\\' ∧ IsExtendable (before ++ [c]) ∧ rest.head? = some found ∧
      ¬IsExtendable (before ++ [c, found])
  | .indexOutOfRange _ digits =>
    digits.toList = (c :: rest).takeWhile Char.isDigit ∧
      UInt64.size ≤ decimalValue digits.toList ∧ ¬IsExtendable (before ++ digits.toList)

theorem IsExtendable.of_append {more : List Char} (h : IsExtendable (cs ++ more)) :
    IsExtendable cs := by
  have hext : Extends true (cs ++ more) := h
  exact hext.of_append

theorem Refutes.not_isExtendable {before rest : List Char} {c : Char} {e : PathError Nat}
    (h : Refutes before c rest e) : ¬IsExtendable (before ++ c :: rest) := by
  intro hext
  cases e with
  | unexpectedEnd => exact h
  | unexpectedChar | leadingDot | unmatchedBracket =>
      have hfound : IsExtendable ((before ++ [c]) ++ rest) := by rwa [List.append_assoc]
      exact h.2 hfound.of_append
  | invalidEscape place found =>
      obtain ⟨-, -, hhead, hunfit⟩ := h
      obtain ⟨rest, rfl⟩ := List.head?_eq_some_iff.1 hhead
      have hfound : IsExtendable ((before ++ [c, found]) ++ rest) := by rwa [List.append_assoc]
      exact hunfit hfound.of_append
  | indexOutOfRange place digits =>
      obtain ⟨hdigits, -, hunfit⟩ := h
      have hfound : IsExtendable
          ((before ++ digits.toList) ++ (c :: rest).dropWhile Char.isDigit) := by
        rwa [hdigits, List.append_assoc, List.takeWhile_append_dropWhile]
      exact hunfit hfound.of_append

/-- Offsets of places in a text: the text ends too early, or its error refutes what stands at its
position. -/
theorem Located.ends_or_refutes (h : Located IsExtendable cs e) :
    (∃ expected, e = .unexpectedEnd expected ∧ IsExtendable cs) ∨
      ∃ before c rest, cs = before ++ c :: rest ∧ IsExtendable before ∧
        (e.map fun place => byteSize cs - byteSize place).position = some (byteSize before) ∧
        Refutes before c rest (e.map fun place => byteSize cs - byteSize place) := by
  have hoffset (before rest : List Char) :
      byteSize (before ++ rest) - byteSize rest = byteSize before := by
    rw [byteSize_append]
    omega
  cases h with
  | ended fits expected => exact .inl ⟨expected, rfl, fits⟩
  | @stray before rest c fits unfit expected =>
      exact .inr ⟨before, c, rest, rfl, fits, congrArg some (hoffset before _), rfl, unfit⟩
  | @dot rest fits unfit => exact .inr ⟨[], '.', rest, rfl, fits, rfl, rfl, unfit⟩
  | @closing before rest fits unfit =>
      exact .inr ⟨before, ']', rest, rfl, fits, congrArg some (hoffset before _), rfl, unfit⟩
  | @escape before rest c fits unfit =>
      exact .inr ⟨before, '\\', c :: rest, rfl, fits.of_append, congrArg some (hoffset before _),
        rfl, fits, rfl, unfit⟩
  | @index before digits rest fits run maximal large unfit =>
      have htake := (takeWhile_dropWhile_iff.2 ⟨rfl, run, maximal⟩).1
      have hposition := congrArg some (hoffset before (digits ++ rest))
      cases digits with
      | nil => exact absurd large (by decide)
      | cons d digits =>
          refine .inr ⟨before, d, digits ++ rest, rfl, fits, hposition, ?_⟩
          simp only [PathError.map, Refutes, String.toList_ofList]
          exact ⟨htake.symm, large, unfit⟩

/-- A text is refused because it ends if and only if it can be extended to a path text. Every
other error has the offset of a character of the text, up to which the text can be extended, and
refutes what stands there. -/
theorem parse_error_position {t : String} {e : PathError Nat} (h : parse t = .error e) :
    ((∃ expected, e = .unexpectedEnd expected) ↔ IsExtendable t.toList) ∧
      (¬IsExtendable t.toList → ∃ before c rest, t.toList = before ++ c :: rest ∧
        e.position = some (byteSize before) ∧ IsExtendable before ∧ Refutes before c rest e) := by
  obtain ⟨e', hread, rfl⟩ := mapError_eq_error_iff.1 h
  have hlocated : Located IsExtendable t.toList e' := located_of_readSegments hread
  rcases hlocated.ends_or_refutes with ⟨expected, rfl, hext⟩ |
    ⟨before, c, rest, hsplit, hbefore, hposition, hrefutes⟩
  · exact ⟨⟨fun _ => hext, fun _ => ⟨expected, rfl⟩⟩, fun hnot => absurd hext hnot⟩
  · have hnot : ¬IsExtendable t.toList := by
      rw [hsplit]
      exact hrefutes.not_isExtendable
    refine ⟨⟨?_, fun hext => absurd hext hnot⟩, fun _ => ?_⟩
    · rintro ⟨expected, hend⟩
      rw [hend] at hrefutes
      exact hrefutes.elim
    · exact ⟨before, c, rest, hsplit, hposition, hbefore, hrefutes⟩

/-- An escape that is none, behind a character of two bytes. -/
theorem parse_error_position_escape :
    let t := "ü[\"\\n"
    let e : PathError Nat := .invalidEscape 4 'n'
    parse t = .error e ∧ ¬IsExtendable t.toList ∧
      ∃ before c rest, t.toList = before ++ c :: rest ∧ e.position = some (byteSize before) ∧
        IsExtendable before ∧ Refutes before c rest e := by
  intro t e
  have hparse : parse t = .error e := by decide +kernel
  obtain ⟨hend, hplace⟩ := parse_error_position hparse
  have hnot : ¬IsExtendable t.toList := by
    intro hext
    obtain ⟨expected, heq⟩ := hend.2 hext
    simp [e] at heq
  exact ⟨hparse, hnot, hplace hnot⟩

end DocPath.Path

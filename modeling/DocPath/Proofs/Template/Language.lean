import Mathlib.Data.List.Basic
import DocPath.Template.Language
import DocPath.Proofs.Run

/-!
# The pieces of a template

Reading ahead and the language of templates agree: every template consists of exactly one list of
pieces, the one that is read.
-/

namespace DocPath.Template

/-! ## Names in parentheses -/

theorem readName_close (rest : List Char) : readName (')' :: rest) = some ([], rest) := by
  rw [readName]

theorem readName_escape {c : Char} (hc : c = '$' ∨ c = ')') (rest : List Char) :
    readName ('$' :: c :: rest) = (readName rest).map fun r => (c :: r.1, r.2) := by
  rw [readName, if_pos hc]

theorem readName_char {c : Char} (hc : c ≠ '$' ∧ c ≠ ')') (rest : List Char) :
    readName (c :: rest) = (readName rest).map fun r => (c :: r.1, r.2) := by
  rw [readName]
  · rintro rfl
    exact hc.2 rfl
  · rintro d tail rfl
    exact absurd rfl hc.1

/-- A dollar that starts no escape stands for itself. -/
theorem readName_loneDollar {c : Char} (hc : c ≠ '$' ∧ c ≠ ')') (rest : List Char) :
    readName ('$' :: c :: rest) = (readName (c :: rest)).map fun r => ('$' :: r.1, r.2) := by
  rw [readName, if_neg (not_or.2 hc), readName_char hc, Option.map_map]
  rfl

theorem readName_append_of_spellsName {text name : List Char} (h : SpellsName text name)
    (rest : List Char) : readName (text ++ rest) = some (name, rest) := by
  induction h with
  | close => exact readName_close rest
  | dollar _ ih =>
      rw [List.cons_append, List.cons_append, readName_escape (.inl rfl), ih]
      rfl
  | parenthesis _ ih =>
      rw [List.cons_append, List.cons_append, readName_escape (.inr rfl), ih]
      rfl
  | loneDollar hc _ ih =>
      rw [List.cons_append, List.cons_append, readName_loneDollar hc, ← List.cons_append, ih]
      rfl
  | char hc _ ih =>
      rw [List.cons_append, readName_char hc, ih]
      rfl

theorem SpellsName.append_ne_nil {text name : List Char} (h : SpellsName text name)
    (rest : List Char) : text ++ rest ≠ [] := by
  cases h <;> exact List.cons_ne_nil _ _

theorem spellsName_of_readName {cs name rest : List Char} (h : readName cs = some (name, rest)) :
    ∃ text, SpellsName text name ∧ cs = text ++ rest := by
  fun_induction readName cs generalizing name with
  | case1 => cases h
  | case2 tail =>
      cases h
      exact ⟨[')'], .close, rfl⟩
  | case3 c tail hc ih =>
      obtain ⟨⟨name, rest⟩, hread, heq⟩ := Option.map_eq_some_iff.1 h
      cases heq
      obtain ⟨text, hspells, rfl⟩ := ih hread
      rcases hc with rfl | rfl
      · exact ⟨_, .dollar hspells, rfl⟩
      · exact ⟨_, .parenthesis hspells, rfl⟩
  | case4 c tail hc ih =>
      obtain ⟨⟨name, rest⟩, hread, heq⟩ := Option.map_eq_some_iff.1 h
      cases heq
      obtain ⟨text, hspells, rfl⟩ := ih hread
      exact ⟨_, .loneDollar (not_or.1 hc) (.char (not_or.1 hc) hspells), rfl⟩
  | case5 c tail hclose hdollar ih =>
      -- A dollar would be the last character, but the name is still to be closed.
      obtain ⟨⟨name, rest⟩, hread, heq⟩ := Option.map_eq_some_iff.1 h
      cases heq
      obtain ⟨text, hspells, rfl⟩ := ih hread
      have hc : c ≠ '$' := by
        rintro rfl
        obtain ⟨d, more, hmore⟩ := List.exists_cons_of_ne_nil (hspells.append_ne_nil rest)
        exact hdollar d more rfl hmore
      exact ⟨_, .char ⟨hc, hclose⟩ hspells, rfl⟩

/-- A name that is read is spelled in front of what is left, and the other way round. -/
theorem readName_eq_some_iff {cs name rest : List Char} :
    readName cs = some (name, rest) ↔ ∃ text, SpellsName text name ∧ cs = text ++ rest := by
  constructor
  · exact spellsName_of_readName
  · rintro ⟨text, hspells, rfl⟩
    exact readName_append_of_spellsName hspells rest

theorem readName_eq_none_iff {cs : List Char} :
    readName cs = none ↔ ∀ text more name, cs = text ++ more → ¬SpellsName text name := by
  constructor
  · rintro hnone text more name rfl hspells
    rw [readName_append_of_spellsName hspells] at hnone
    contradiction
  · intro h
    cases hread : readName cs with
    | none => rfl
    | some r =>
        obtain ⟨name, rest⟩ := r
        obtain ⟨text, hspells, htext⟩ := readName_eq_some_iff.1 hread
        exact absurd hspells (h text rest name htext)

/-! ## Pieces -/

theorem pieces_nil : pieces [] = [] := by
  rw [pieces]

theorem pieces_char {c : Char} (hc : c ≠ '$') (cs : List Char) :
    pieces (c :: cs) = .char c :: pieces cs := by
  rw [pieces]
  · rintro rfl
    exact absurd rfl hc
  · rintro d rest rfl
    exact absurd rfl hc

theorem pieces_dollar (cs : List Char) : pieces ('$' :: '$' :: cs) = .char '$' :: pieces cs := by
  rw [pieces, if_pos rfl]

theorem pieces_name {cs name rest : List Char} (h : readName cs = some (name, rest)) :
    pieces ('$' :: '(' :: cs) = .name (String.ofList name) :: pieces rest := by
  rw [pieces, if_neg (by decide), if_pos rfl]
  split
  · rename_i hread
    cases h.symm.trans hread
    rfl
  · rename_i hread
    cases h.symm.trans hread

theorem pieces_openName {cs : List Char} (h : readName cs = none) :
    pieces ('$' :: '(' :: cs) = ('$' :: '(' :: cs).map .char := by
  rw [pieces, if_neg (by decide), if_pos rfl]
  split
  · rename_i hread
    cases h.symm.trans hread
  · rfl

theorem isNameChar_ne {c : Char} (hc : isNameChar c = true) : c ≠ '$' ∧ c ≠ '(' := by
  constructor
  · rintro rfl
    exact absurd hc (by decide)
  · rintro rfl
    exact absurd hc (by decide)

/-- A name without parentheses goes on as far as it can. -/
theorem pieces_bareName {word cs : List Char} (hword : word ≠ [])
    (hall : ∀ c ∈ word, isNameChar c = true) (hstops : Stops isNameChar cs) :
    pieces ('$' :: (word ++ cs)) = .name (String.ofList word) :: pieces cs := by
  cases word with
  | nil => exact absurd rfl hword
  | cons c word =>
      have hc : isNameChar c = true := hall c List.mem_cons_self
      obtain ⟨hdollar, hopen⟩ := isNameChar_ne hc
      have hrun : ∀ d ∈ word, isNameChar d = true :=
        fun d hd => hall d (List.mem_cons_of_mem c hd)
      obtain ⟨htake, hdrop⟩ := takeWhile_dropWhile_iff.2 ⟨rfl, hrun, hstops⟩
      rw [List.cons_append, pieces, if_neg hdollar, if_neg hopen, if_pos hc, htake, hdrop]

theorem pieces_loneDollar {cs : List Char}
    (h : ∀ c, cs.head? = some c → c ≠ '$' ∧ c ≠ '(' ∧ isNameChar c = false) :
    pieces ('$' :: cs) = .char '$' :: pieces cs := by
  cases cs with
  | nil => rw [pieces_nil, pieces]
  | cons c cs =>
      obtain ⟨hdollar, hopen, hname⟩ := h c rfl
      rw [pieces, if_neg hdollar, if_neg hopen, if_neg (by simp [hname]), pieces_char hdollar]

/-- Whatever a template consists of is read. -/
theorem pieces_of_consists {cs : List Char} {ps : List Piece} (h : Consists cs ps) :
    pieces cs = ps := by
  induction h with
  | nil => exact pieces_nil
  | dollar _ ih => rw [pieces_dollar, ih]
  | bareName hword hall hends _ ih => rw [pieces_bareName hword hall hends, ih]
  | name hspells _ ih => rw [pieces_name (readName_append_of_spellsName hspells _), ih]
  | openName hunclosed => exact pieces_openName (readName_eq_none_iff.2 hunclosed)
  | loneDollar hlone _ ih => rw [pieces_loneDollar hlone, ih]
  | char hc _ ih => rw [pieces_char hc, ih]

/-- Every template consists of the pieces that are read. -/
theorem consists_pieces (cs : List Char) : Consists cs (pieces cs) := by
  fun_induction pieces cs with
  | case1 => exact .nil
  | case2 => exact .loneDollar nofun .nil
  | case3 rest ih => exact .dollar ih
  | case4 rest name rest' hread _ ih =>
      obtain ⟨text, hspells, rfl⟩ := readName_eq_some_iff.1 hread
      exact .name hspells ih
  | case5 rest hread _ => exact .openName (readName_eq_none_iff.1 hread)
  | case6 c rest hdollar hopen hc ih =>
      -- The longest run is a name, and what is behind it cannot go on with it.
      obtain ⟨hrest, hrun, hstops⟩ := takeWhile_dropWhile_iff.1
        (⟨rfl, rfl⟩ : rest.takeWhile isNameChar = _ ∧ rest.dropWhile isNameChar = _)
      have hall : ∀ d ∈ c :: rest.takeWhile isNameChar, isNameChar d = true :=
        List.forall_mem_cons.2 ⟨hc, hrun⟩
      have hconsists := Consists.bareName (List.cons_ne_nil c _) hall hstops ih
      rwa [List.cons_append, ← hrest] at hconsists
  | case7 c rest hdollar hopen hc ih =>
      refine .loneDollar ?_ (.char hdollar ih)
      rintro d ⟨⟩
      exact ⟨hdollar, hopen, by simpa using hc⟩
  | case8 c rest hend hmore ih =>
      have hc : c ≠ '$' := by
        rintro rfl
        cases rest with
        | nil => exact hend rfl rfl
        | cons d rest => exact hmore d rest rfl rfl
      exact .char hc ih

/-- A template consists of the pieces that are read, and of no others. -/
theorem consists_iff {cs : List Char} {ps : List Piece} : Consists cs ps ↔ ps = pieces cs := by
  constructor
  · intro h
    exact (pieces_of_consists h).symm
  · rintro rfl
    exact consists_pieces cs

end DocPath.Template

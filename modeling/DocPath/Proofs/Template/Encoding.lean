import DocPath.Proofs.Template.Scanner

/-!
# Templates that are written

Every list of texts and names has a template: in texts every dollar is doubled, and names stand in
parentheses with a dollar before every dollar and closing parenthesis. Read in front of any other
template, such a part gives its own pieces and leaves the other template as it is. So expanding the
template of some parts writes the texts and the answers to the names, and asks for these names only.
-/

namespace DocPath.Template

/-! ## Names -/

theorem spellsName_escapeName (name : List Char) : SpellsName (escapeName name ++ [')']) name := by
  induction name with
  | nil => exact .close
  | cons c name ih =>
      have hcons : escapeName (c :: name) =
          (if c = '$' ∨ c = ')' then ['$', c] else [c]) ++ escapeName name := rfl
      rw [hcons]
      by_cases hc : c = '$' ∨ c = ')'
      · rw [if_pos hc]
        rcases hc with rfl | rfl
        · exact .dollar ih
        · exact .parenthesis ih
      · rw [if_neg hc]
        exact .char (not_or.1 hc) ih

/-- A name in parentheses is read as that name, whatever follows. -/
theorem pieces_placeholder (name rest : List Char) :
    pieces (placeholder name ++ rest) = .name (String.ofList name) :: pieces rest := by
  have hread := readName_append_of_spellsName (spellsName_escapeName name) rest
  have hpieces := pieces_name hread
  rwa [← List.cons_append, ← List.cons_append] at hpieces

/-! ## Texts -/

/-- A text is read as its characters, whatever follows. -/
theorem pieces_escapeText (cs rest : List Char) :
    pieces (escapeText cs ++ rest) = cs.map .char ++ pieces rest := by
  induction cs with
  | nil => rfl
  | cons c cs ih =>
      have hcons : escapeText (c :: cs) =
          (if c = '$' then ['$', '$'] else [c]) ++ escapeText cs := rfl
      rw [hcons, List.append_assoc, List.map_cons, List.cons_append, ← ih]
      by_cases hc : c = '$'
      · -- The two dollars are read together, so the second is free for nothing else.
        subst hc
        exact pieces_dollar _
      · rw [if_neg hc]
        exact pieces_char hc _

/-! ## Parts -/

/-- The template of some parts is read as their pieces. -/
theorem pieces_encode (parts : List Part) :
    pieces (encode parts).toList = parts.flatMap Part.pieces := by
  rw [encode, String.toList_ofList]
  induction parts with
  | nil => exact pieces_nil
  | cons part parts ih =>
      rw [List.flatMap_cons, List.flatMap_cons, ← ih]
      cases part with
      | text s => exact pieces_escapeText s.toList _
      | name s =>
          refine (pieces_placeholder s.toList _).trans ?_
          rw [String.ofList_toList]
          rfl

section Fill

variable {m : Type → Type} [Monad m] [LawfulMonad m] (resolve : String → m String)

/-- The pieces of a part write its content. -/
theorem foldlM_write_pieces (part : Part) (out : String) :
    part.pieces.foldlM (write resolve) out = (out ++ ·) <$> part.content resolve := by
  cases part with
  | text s =>
      rw [Part.pieces, foldlM_write_char, String.ofList_toList]
      simp [Part.content]
  | name s => simp [Part.pieces, Part.content, write]

/-- Behind what is written already, the pieces of some parts write their contents in order. -/
theorem foldlM_write_parts (parts : List Part) (out : String) :
    (parts.flatMap Part.pieces).foldlM (write resolve) out =
      (fun contents => out ++ String.join contents) <$> parts.mapM (Part.content resolve) := by
  induction parts generalizing out with
  | nil => simp [String.join]
  | cons part parts ih =>
      rw [List.flatMap_cons, List.foldlM_append, foldlM_write_pieces, List.mapM_cons]
      simp [ih, String.join_cons, String.append_assoc]

/-- The pieces of some parts are filled by assembling the parts. -/
theorem fill_parts (parts : List Part) :
    fill resolve (parts.flatMap Part.pieces) = assemble resolve parts := by
  rw [fill, foldlM_write_parts]
  simp [assemble]

end Fill

/-- The pieces of some parts hold the names among the parts and no others. -/
theorem names_parts (parts : List Part) : names (parts.flatMap Part.pieces) = nameParts parts := by
  rw [names, nameParts, List.filterMap_flatMap, List.filterMap_eq_flatMap_toList]
  congr 1
  funext part
  cases part with
  | text s => simp [Part.pieces, List.filterMap_map]
  | name s => rfl

/-- Expanding the template of some parts writes the texts as they are and the answers to the names,
all in order, and asks for these names, each once and in order, whatever the answers are. -/
theorem expandM_encode (parts : List Part) {σ : Type} (resolve : String → StateM σ String) (s : σ) :
    (expandM resolve (encode parts)).run s = (assemble resolve parts).run s ∧
      (expandM (recording resolve) (encode parts)).run (s, []) =
        (((assemble resolve parts).run s).1, ((assemble resolve parts).run s).2,
          nameParts parts) := by
  constructor
  · rw [expandM_eq_fill, pieces_encode, fill_parts]
  · rw [expandM_eq_fill, fill, run_foldlM_recording, ← fill, pieces_encode, fill_parts, names_parts]
    rfl

-- A text that ends in a dollar in front of names of a dollar and a parenthesis, and of nothing.
example :
    encode [.text "a$", .name "$)", .name "", .text "b"] = "a$$$($$$))$()b" ∧
      expand (fun name => "<" ++ name ++ ">") "a$$$($$$))$()b" = "a$<$)><>b" := by
  exact ⟨rfl, rfl⟩

end DocPath.Template

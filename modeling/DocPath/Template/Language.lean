import DocPath.Template.Basic

/-!
# The language of templates

Which pieces a template consists of, as a relation, and how pieces are written as a template: every
dollar in a text is doubled, and names stand in parentheses.
-/

namespace DocPath.Template

/-- The text of a name behind its opening parenthesis, up to the closing one, and the name. -/
inductive SpellsName : List Char → List Char → Prop where
  | close : SpellsName [')'] []
  | dollar {cs name : List Char} (rest : SpellsName cs name) :
      SpellsName ('$' :: '$' :: cs) ('$' :: name)
  | parenthesis {cs name : List Char} (rest : SpellsName cs name) :
      SpellsName ('$' :: ')' :: cs) (')' :: name)
  | loneDollar {c : Char} {cs name : List Char} (other : c ≠ '$' ∧ c ≠ ')')
      (rest : SpellsName (c :: cs) name) : SpellsName ('$' :: c :: cs) ('$' :: name)
  | char {c : Char} {cs name : List Char} (other : c ≠ '$' ∧ c ≠ ')')
      (rest : SpellsName cs name) : SpellsName (c :: cs) (c :: name)

/-- A template and its pieces. -/
inductive Consists : List Char → List Piece → Prop where
  | nil : Consists [] []
  | dollar {cs : List Char} {ps : List Piece} (rest : Consists cs ps) :
      Consists ('$' :: '$' :: cs) (.char '$' :: ps)
  /-- A name without parentheses is as long as it can be. -/
  | bareName {word cs : List Char} {ps : List Piece} (nonempty : word ≠ [])
      (all : ∀ c ∈ word, isNameChar c = true) (ends : ∀ c, cs.head? = some c → isNameChar c = false)
      (rest : Consists cs ps) :
      Consists ('$' :: (word ++ cs)) (.name (String.ofList word) :: ps)
  | name {text name cs : List Char} {ps : List Piece} (spelled : SpellsName text name)
      (rest : Consists cs ps) :
      Consists ('$' :: '(' :: (text ++ cs)) (.name (String.ofList name) :: ps)
  /-- A name that is never closed is text to the end. -/
  | openName {cs : List Char} (unclosed : ∀ text more name, cs = text ++ more →
      ¬ SpellsName text name) : Consists ('$' :: '(' :: cs) (('$' :: '(' :: cs).map .char)
  | loneDollar {cs : List Char} {ps : List Piece}
      (lone : ∀ c, cs.head? = some c → c ≠ '$' ∧ c ≠ '(' ∧ isNameChar c = false)
      (rest : Consists cs ps) : Consists ('$' :: cs) (.char '$' :: ps)
  | char {c : Char} {cs : List Char} {ps : List Piece} (other : c ≠ '$') (rest : Consists cs ps) :
      Consists (c :: cs) (.char c :: ps)

/-! ## Writing templates -/

/-- A part of a template to be written. -/
inductive Part where
  | text (s : String)
  | name (s : String)
deriving DecidableEq, Repr

/-- A text with every dollar doubled. -/
def escapeText (cs : List Char) : List Char :=
  cs.flatMap fun c => if c = '$' then ['$', '$'] else [c]

/-- A name with a dollar before every dollar and closing parenthesis. -/
def escapeName (cs : List Char) : List Char :=
  cs.flatMap fun c => if c = '$' ∨ c = ')' then ['$', c] else [c]

/-- A name in parentheses. -/
def placeholder (name : List Char) : List Char := '$' :: '(' :: (escapeName name ++ [')'])

/-- The template that consists of some parts. -/
def encode (parts : List Part) : String :=
  String.ofList (parts.flatMap fun
    | .text s => escapeText s.toList
    | .name s => placeholder s.toList)

/-! ## Reading templates back -/

/-- The pieces that a part stands for. -/
def Part.pieces : Part → List Piece
  | .text s => s.toList.map .char
  | .name s => [.name s]

/-- What is written for a part: a text as it is, a name as the answer to it. -/
def Part.content {m : Type → Type} [Monad m] (resolve : String → m String) : Part → m String
  | .text s => return s
  | .name s => resolve s

/-- What is written for some parts, one behind the other. -/
def assemble {m : Type → Type} [Monad m] (resolve : String → m String) (parts : List Part) :
    m String :=
  return String.join (← parts.mapM (Part.content resolve))

/-- The names among some parts, in order. -/
def nameParts (parts : List Part) : List String :=
  parts.filterMap fun
    | .text _ => none
    | .name s => some s

end DocPath.Template

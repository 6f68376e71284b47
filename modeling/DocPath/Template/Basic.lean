import DocPath.Path.Reader

/-!
# Templates

A template is a text with placeholders: `$name` for a run of letters, digits and underscores, and
`$(any text)` up to the first closing parenthesis that is not escaped. Inside parentheses `$$`
stands for a dollar and `$)` for a parenthesis; outside, `$$` stands for a dollar. A placeholder
that is never closed is plain text, and so is every other dollar.

The pieces of a template are read by looking ahead: to the end of a run, or to the parenthesis that
closes a name. They depend on the text alone. Filling them asks for each name once, in order, and
writes what it stands for as it is.
-/

namespace DocPath.Template

/-- A piece of a template: a character to copy or a name to look up. -/
inductive Piece where
  | char (c : Char)
  | name (text : String)
deriving DecidableEq, Repr

/-- The characters of a name without parentheses. -/
def isNameChar (c : Char) : Bool := c.isAlphanum || c == '_'

/-- Reads a name in parentheses and the closing one; nothing when it is not closed. -/
def readName : List Char → Option (List Char × List Char)
  | [] => none
  | ')' :: rest => some ([], rest)
  | '$' :: c :: rest =>
    if c = '$' ∨ c = ')' then (readName rest).map fun (name, rest') => (c :: name, rest')
    else (readName rest).map fun (name, rest') => ('$' :: c :: name, rest')
  | c :: rest => (readName rest).map fun (name, rest') => (c :: name, rest')

theorem length_lt_of_readName {cs name rest : List Char} (h : readName cs = some (name, rest)) :
    rest.length < cs.length := by
  fun_induction readName cs generalizing name with
  | case1 => contradiction
  | case2 => cases h; exact Nat.lt_succ_self _
  | case3 c tail _ ih =>
    obtain ⟨⟨n, r⟩, hn, heq⟩ := Option.map_eq_some_iff.1 h
    cases heq
    have := ih hn
    simp only [List.length_cons]
    omega
  | case4 c tail _ ih =>
    obtain ⟨⟨n, r⟩, hn, heq⟩ := Option.map_eq_some_iff.1 h
    cases heq
    have := ih hn
    simp only [List.length_cons]
    omega
  | case5 c tail _ _ ih =>
    obtain ⟨⟨n, r⟩, hn, heq⟩ := Option.map_eq_some_iff.1 h
    cases heq
    have := ih hn
    simp only [List.length_cons]
    omega

/-- The pieces of a template. -/
def pieces (cs : List Char) : List Piece :=
  match cs with
  | [] => []
  | ['$'] => [.char '$']
  | '$' :: c :: rest =>
    if c = '$' then .char '$' :: pieces rest
    else if c = '(' then
      match _h : readName rest with
      | some (name, rest') => .name (String.ofList name) :: pieces rest'
      -- Placeholders inside a name that is never closed are text as well.
      | none => ('$' :: c :: rest).map .char
    else if isNameChar c then
      .name (String.ofList (c :: rest.takeWhile isNameChar)) :: pieces (rest.dropWhile isNameChar)
    else .char '$' :: .char c :: pieces rest
  | c :: rest => .char c :: pieces rest
termination_by cs.length
decreasing_by
  all_goals simp only [List.length_cons]
  · omega
  · have := length_lt_of_readName _h
    omega
  · have := Path.length_dropWhile_le isNameChar rest
    omega
  · omega
  · omega

/-- Writes one piece behind a text, a name as what it stands for. -/
def write {m : Type → Type} [Monad m] (resolve : String → m String) (out : String) :
    Piece → m String
  | .char c => return out.push c
  | .name n => return out ++ (← resolve n)

/-- The text of pieces, with each name replaced by what it stands for. -/
def fill {m : Type → Type} [Monad m] (resolve : String → m String) (ps : List Piece) : m String :=
  ps.foldlM (write resolve) ""

/-- The names that are looked up, in order. -/
def names (ps : List Piece) : List String :=
  ps.filterMap fun
    | .char _ => none
    | .name n => some n

end DocPath.Template

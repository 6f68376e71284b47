import DocPath.Path.Basic

/-!
# The grammar of path texts

Which texts spell which paths, as a relation: a path is empty, or starts with a name or a bracket;
names that follow have a dot in front, brackets have none. A bracket holds the digits of an index
or a quoted key.
-/

namespace DocPath.Path

/-- A run of characters that are no delimiters. -/
def IsName (cs : List Char) : Prop := cs ≠ [] ∧ ∀ c ∈ cs, isDelimiter c = false

/-- The text between the quotes of a key, and the key. -/
inductive SpellsQuoted : List Char → List Char → Prop where
  | nil : SpellsQuoted [] []
  | char {c : Char} {cs key : List Char} (plain : c ≠ '"' ∧ c ≠ '\\') (rest : SpellsQuoted cs key) :
      SpellsQuoted (c :: cs) (c :: key)
  | escaped {c : Char} {cs key : List Char} (special : c = '"' ∨ c = '\\')
      (rest : SpellsQuoted cs key) : SpellsQuoted ('\\' :: c :: cs) (c :: key)

/-- The text of a bracket, and the segment that it spells. -/
inductive SpellsBracket : List Char → Segment → Prop where
  | index {digits : List Char} (nonempty : digits ≠ []) (all : ∀ d ∈ digits, d.isDigit = true)
      (small : decimalValue digits < UInt64.size) :
      SpellsBracket ('[' :: (digits ++ [']'])) (.index (UInt64.ofNat (decimalValue digits)))
  | key {cs key : List Char} (quoted : SpellsQuoted cs key) :
      SpellsBracket ('[' :: '"' :: (cs ++ ['"', ']'])) (.key (String.ofList key))

/-- The text behind the first segment of a path, and the segments that it spells. -/
inductive SpellsRest : List Char → Path → Prop where
  | nil : SpellsRest [] []
  | name {word cs : List Char} {p : Path} (name : IsName word) (rest : SpellsRest cs p) :
      SpellsRest ('.' :: (word ++ cs)) (.key (String.ofList word) :: p)
  | bracket {text cs : List Char} {s : Segment} {p : Path} (bracket : SpellsBracket text s)
      (rest : SpellsRest cs p) : SpellsRest (text ++ cs) (s :: p)

/-- A text and the path that it spells. -/
inductive Spells : List Char → Path → Prop where
  | root : Spells [] []
  | name {word cs : List Char} {p : Path} (name : IsName word) (rest : SpellsRest cs p) :
      Spells (word ++ cs) (.key (String.ofList word) :: p)
  | bracket {text cs : List Char} {s : Segment} {p : Path} (bracket : SpellsBracket text s)
      (rest : SpellsRest cs p) : Spells (text ++ cs) (s :: p)

/-- A text that the start of a path text can be. -/
def IsExtendable (cs : List Char) : Prop := ∃ more p, Spells (cs ++ more) p

end DocPath.Path

import DocPath.Binary64.Layout
import DocPath.Hex
import DocPath.Value.Basic

/-!
# Writing JSON texts

A value is written either on one line without any space or with each item on a line of its own,
indented by its nesting. Empty containers stay on one line. Doubles that are not finite become
null.
-/

namespace DocPath.Json

/-- Doubles have a point or an exponent, which is written outside the range from -5 to 15. -/
def doubleLayout : Layout where
  tie := .toEven
  isPositional e := -5 ≤ e && e < 16
  wholeSuffix := ".0"
  exponentPlus := "+"
  infinity := "null"
  negativeInfinity := "null"
  nan := "null"

def numberText : Number → String
  | .int i => if i.toInt < 0 then "-" ++ decimal i.toInt.natAbs else decimal i.toInt.natAbs
  | .nat n => decimal n.toNat
  | .double x => doubleLayout.text x

/-- A character as it stands in quotes. -/
def escape (c : Char) : List Char :=
  match c with
  | '"' => ['\\', '"']
  | '\\' => ['\\', '\\']
  | '\n' => ['\\', 'n']
  | '\r' => ['\\', 'r']
  | '\t' => ['\\', 't']
  | '\x08' => ['\\', 'b']
  | '\x0c' => ['\\', 'f']
  | c => if c.toNat < 0x20 then '\\' :: 'u' :: hex 4 c.toNat else [c]

/-- A text in quotes. -/
def quoted (s : String) : List Char := '"' :: (s.toList.flatMap escape ++ ['"'])

/-- What stands between tokens. -/
structure Spacing where
  /-- What stands before an item or a closing mark at a level of nesting. -/
  line : Nat → List Char
  /-- What stands behind the colon of a field. -/
  afterColon : List Char

/-- No space at all. -/
def Spacing.compact : Spacing := ⟨fun _ => [], []⟩

/-- Lines indented by a number of spaces per level. -/
def Spacing.indented (indent : Nat) : Spacing :=
  ⟨fun level => '\n' :: List.replicate (level * indent) ' ', [' ']⟩

mutual

/-- The text of a value at a level of nesting. -/
def chars (sp : Spacing) (level : Nat) : Value → List Char
  | .null => ['n', 'u', 'l', 'l']
  | .bool true => ['t', 'r', 'u', 'e']
  | .bool false => ['f', 'a', 'l', 's', 'e']
  | .number n => (numberText n).toList
  | .string s => quoted s
  | .array [] => ['[', ']']
  | .array (v :: rest) =>
    '[' :: (sp.line (level + 1) ++ chars sp (level + 1) v ++ elementsChars sp (level + 1) rest
      ++ sp.line level ++ [']'])
  | .object [] => ['{', '}']
  | .object ((key, v) :: rest) =>
    '{' :: (sp.line (level + 1) ++ quoted key ++ ':' :: sp.afterColon ++ chars sp (level + 1) v
      ++ fieldsChars sp (level + 1) rest ++ sp.line level ++ ['}'])

/-- Elements behind the first one. -/
def elementsChars (sp : Spacing) (level : Nat) : List Value → List Char
  | [] => []
  | v :: rest => ',' :: (sp.line level ++ chars sp level v ++ elementsChars sp level rest)

/-- Fields behind the first one. -/
def fieldsChars (sp : Spacing) (level : Nat) : List (String × Value) → List Char
  | [] => []
  | (key, v) :: rest =>
    ',' :: (sp.line level ++ quoted key ++ ':' :: sp.afterColon ++ chars sp level v
      ++ fieldsChars sp level rest)

end

/-- The text of a value on one line. -/
def compact (v : Value) : String := String.ofList (chars .compact 0 v)

/-- The text of a value on lines indented by a number of spaces per level. -/
def pretty (indent : Nat) (v : Value) : String := String.ofList (chars (.indented indent) 0 v)

end DocPath.Json

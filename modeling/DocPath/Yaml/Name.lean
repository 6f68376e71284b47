import DocPath.Hex
import DocPath.Yaml.Cursor

/-!
# Names in YAML texts

Anchors, tags and the values of directives. A tag is written with a handle, which a directive may
define, or in full between angle brackets; its text may escape bytes by a percent sign and two
digits.
-/

namespace DocPath.Yaml.Name

/-- The characters that may follow the name of an anchor at once. -/
def endsAnchor (c : Char) : Bool :=
  isGap c || c == '?' || c == ':' || c == ',' || c == ']' || c == '}' || c == '%' || c == '@'
    || c == '\x60'

/-- Reads the name of an anchor from the mark before it on. -/
def readAnchor (k : Cursor) : Option (String × Cursor) :=
  let (name, k') := (k.advance 1).takeWhile isWord
  if name.isEmpty || !(k'.atEnd || k'.next endsAnchor) then none
  else some (String.ofList name, k')

/-- A character of the text of a tag. The marks of flow collections only count in full tags. -/
def isTagChar (full : Bool) (c : Char) : Bool :=
  isWord c || c == ';' || c == '/' || c == '?' || c == ':' || c == '@' || c == '&' || c == '='
    || c == '+' || c == '$' || c == '.' || c == '%' || c == '!' || c == '~' || c == '*'
    || c == '\x27' || c == '(' || c == ')' || (full && (c == ',' || c == '[' || c == ']'))

/-- How many bytes a character has whose first byte is given. -/
def byteCount? (b : Nat) : Option Nat :=
  if b < 0x80 then some 1
  else if 0xC0 ≤ b ∧ b < 0xE0 then some 2
  else if 0xE0 ≤ b ∧ b < 0xF0 then some 3
  else if 0xF0 ≤ b ∧ b < 0xF8 then some 4
  else none

/-- Reads one escaped byte. -/
def readByte (k : Cursor) : Option (Nat × Cursor) :=
  match k.rest with
  | '%' :: rest => (readHex 0 2 rest).map fun (b, _) => (b, k.advance 3)
  | _ => none

/-- Reads the further bytes of an escaped character; `n` is the value of the bits before them. -/
def readFurtherBytes (n : Nat) (k : Cursor) : (count : Nat) → Option (Nat × Cursor)
  | 0 => some (n, k)
  | count + 1 =>
    match readByte k with
    | none => none
    | some (b, k') =>
      if 0x80 ≤ b ∧ b < 0xC0 then readFurtherBytes (n * 0x40 + (b - 0x80)) k' count else none

/-- Reads an escaped character. -/
def readEscaped (k : Cursor) : Option (Char × Cursor) := do
  let (b, k') ← readByte k
  let count ← byteCount? b
  let lead := match count with
    | 1 => b
    | 2 => b - 0xC0
    | 3 => b - 0xE0
    | _ => b - 0xF0
  let (n, k'') ← readFurtherBytes lead k' (count - 1)
  return (if n.isValidChar then Char.ofNat n else '\uFFFD', k'')

/-- Reads the text of a tag; `out` is the text so far in reverse. -/
def readTagText (full : Bool) (out : List Char) (k : Cursor) :
    (fuel : Nat) → Option (List Char × Cursor)
  | 0 => none
  | fuel + 1 =>
    match k.rest with
    | [] => some (out.reverse, k)
    | c :: _ =>
      if !isTagChar full c then some (out.reverse, k)
      else if c == '%' then
        match readEscaped k with
        | none => none
        | some (d, k') => readTagText full (d :: out) k' fuel
      else readTagText full (c :: out) (k.advance 1) fuel

/-- Reads a handle: an exclamation mark, a name and, when there is one, a second mark. -/
def readHandle (k : Cursor) : Option (List Char × Cursor) :=
  if !k.next (· == '!') then none
  else
    let (name, k') := (k.advance 1).takeWhile isWord
    if k'.next (· == '!') then some ('!' :: (name ++ ['!']), k'.advance 1)
    else some ('!' :: name, k')

/-- Reads a tag between angle brackets. -/
def readFullTag (k : Cursor) : Option ((String × String) × Cursor) := do
  let (text, k') ← readTagText true [] (k.advance 2) k.fuel
  if text.isEmpty || !k'.next (· == '>') then none
  else return (("", String.ofList text), k'.advance 1)

/-- Reads a tag with a handle. A name that no second mark follows belongs to the text, and the
mark alone is a tag of its own. -/
def readShortTag (k : Cursor) : Option ((String × String) × Cursor) := do
  let (handle, k') ← readHandle k
  let fuel := k.fuel
  if 1 < handle.length ∧ handle.getLast? = some '!' then
    let (text, k'') ← readTagText false [] k' fuel
    if text.isEmpty then none
    else return ((String.ofList handle, String.ofList text), k'')
  else
    let (text, k'') ← readTagText false (handle.drop 1).reverse k' fuel
    if text.isEmpty then return (("", "!"), k'')
    else return (("!", String.ofList text), k'')

/-- Reads a tag, which a gap has to follow, or a comma in a flow collection. -/
def readTag (inFlow : Bool) (k : Cursor) : Option ((String × String) × Cursor) := do
  let (tag, k') ← if k.rest.drop 1 |>.head? |>.any (· == '<') then readFullTag k else readShortTag k
  if startsWithGap k'.rest || (inFlow && k'.next (· == ',')) then return (tag, k') else none

/-- Reads a part of a version: one to nine digits. -/
def readVersionPart (k : Cursor) : Option (Nat × Cursor) :=
  let (digits, k') := k.takeWhile Char.isDigit
  if digits.isEmpty || 9 < digits.length then none
  else some (Nat.ofDigitChars 10 digits 0, k')

/-- Reads two numbers with a dot between them. -/
def readVersion (k : Cursor) : Option ((Nat × Nat) × Cursor) := do
  let (major, k₁) ← readVersionPart (k.skipWhile isBlank)
  if !k₁.next (· == '.') then none
  let (minor, k₂) ← readVersionPart (k₁.advance 1)
  return ((major, minor), k₂)

/-- Reads a handle and the text that it stands for. -/
def readTagHandle (k : Cursor) : Option ((String × String) × Cursor) := do
  let (handle, k₁) ← readHandle (k.skipWhile isBlank)
  if handle ≠ ['!'] ∧ (handle.length = 1 ∨ handle.getLast? ≠ some '!') then none
  if !k₁.next isBlank then none
  let (text, k₂) ← readTagText true [] (k₁.skipWhile isBlank) k.fuel
  if text.isEmpty || !startsWithGap k₂.rest then none
  else return ((String.ofList handle, String.ofList text), k₂)

end DocPath.Yaml.Name

import DocPath.Yaml.Char

/-!
# A place in a YAML text

The text that is still to be read, with the line and column of its first character. Line ends are
stepped over as a whole, so that a carriage return and a line feed count once.
-/

namespace DocPath.Yaml

/-- A place in a text. -/
structure Cursor where
  rest : List Char
  index : Nat
  line : Nat
  column : Nat
  /-- The number of characters of the whole text, which bounds every loop over it. -/
  size : Nat

namespace Cursor

def ofText (cs : List Char) : Cursor := ⟨cs, 0, 0, 0, cs.length⟩

/-- A bound for loops that step over a character at least. -/
def fuel (k : Cursor) : Nat := k.size + 1

/-- The next character satisfies a test. -/
def next (k : Cursor) (p : Char → Bool) : Bool :=
  match k.rest with
  | [] => false
  | c :: _ => p c

/-- The text ends here. -/
def atEnd (k : Cursor) : Bool := k.rest.isEmpty

/-- The text or the line ends here. -/
def atLineEnd (k : Cursor) : Bool := k.atEnd || k.next isBreak

/-- Steps over characters of one line. -/
def advance (k : Cursor) (n : Nat) : Cursor :=
  { k with rest := k.rest.drop n, index := k.index + n, column := k.column + n }

/-- Reads the characters that satisfy a test; none of them may end a line. -/
def takeWhile (k : Cursor) (p : Char → Bool) : List Char × Cursor :=
  let taken := k.rest.takeWhile p
  (taken, k.advance taken.length)

def skipWhile (k : Cursor) (p : Char → Bool) : Cursor := (k.takeWhile p).2

/-- The text that a line end stands for. -/
def breakText (k : Cursor) : List Char :=
  match k.rest with
  | [] => []
  | c :: _ => if !isBreak c then [] else if c == '\u2028' || c == '\u2029' then [c] else ['\n']

/-- Steps over a line end, if there is one. -/
def skipBreak (k : Cursor) : Cursor :=
  match k.rest with
  | '\r' :: '\n' :: rest => ⟨rest, k.index + 2, k.line + 1, 0, k.size⟩
  | c :: rest => if isBreak c then ⟨rest, k.index + 1, k.line + 1, 0, k.size⟩ else k
  | [] => k

/-- Three equal marks stand here at the start of a line and alone. -/
def atMarks (k : Cursor) (mark : Char) : Bool :=
  k.column == 0 && k.rest.take 3 == [mark, mark, mark] && startsWithGap (k.rest.drop 3)

/-- The start or the end of a document is marked here. -/
def atDocumentMark (k : Cursor) : Bool := k.atMarks '-' || k.atMarks '.'

/-- Steps over a comment, if one starts here. -/
def skipComment (k : Cursor) : Cursor :=
  if k.next (· == '#') then k.skipWhile (!isBreak ·) else k

end Cursor

end DocPath.Yaml

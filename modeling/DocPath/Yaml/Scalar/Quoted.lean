import DocPath.Hex
import DocPath.Yaml.Scalar.Gap

/-!
# Quoted scalars

In single quotes only the quote itself is escaped, by doubling it. In double quotes a backslash
starts an escape, and before a line end it hides the line end.
-/

namespace DocPath.Yaml.Quoted

/-- The character that a letter behind a backslash stands for. -/
def letterEscape? : Char → Option Char
  | '0' => some '\x00'
  | 'a' => some '\x07'
  | 'b' => some '\x08'
  | 't' => some '\t'
  | '\t' => some '\t'
  | 'n' => some '\n'
  | 'v' => some '\x0b'
  | 'f' => some '\x0c'
  | 'r' => some '\r'
  | 'e' => some '\x1b'
  | ' ' => some ' '
  | '"' => some '"'
  | '/' => some '/'
  | '\\' => some '\\'
  | 'N' => some '\u0085'
  | '_' => some '\u00a0'
  | 'L' => some '\u2028'
  | 'P' => some '\u2029'
  | _ => none

/-- How many digits follow a letter behind a backslash. -/
def digitCount? : Char → Option Nat
  | 'x' => some 2
  | 'u' => some 4
  | 'U' => some 8
  | _ => none

/-- The character with a number, unless that is half of one. -/
def charOf? (n : Nat) : Option Char := if n.isValidChar then some (Char.ofNat n) else none

/-- The escaped character and the number of characters behind the backslash that spell it. -/
def readEscape : List Char → Option (Char × Nat)
  | [] => none
  | c :: rest =>
    match letterEscape? c with
    | some d => some (d, 1)
    | none => do
      let count ← digitCount? c
      let (n, _) ← readHex 0 count rest
      let d ← charOf? n
      return (d, count + 1)

/-- Reads the text of a quoted scalar and its closing quote; `out` is the text so far in reverse. -/
def readChars (single : Bool) (out : List Char) (k : Cursor) :
    (fuel : Nat) → Option (List Char × Cursor)
  | 0 => none
  | fuel + 1 =>
    match k.rest with
    | [] => none
    | c :: rest =>
      if k.atDocumentMark then none
      else if isGap c then
        match Gap.empty.read 0 k k.fuel with
        | none => none
        | some (gap, k') => readChars single (gap.text.reverse ++ out) k' fuel
      else if single && c == '\x27' then
        if rest.head? == some '\x27' then readChars single ('\x27' :: out) (k.advance 2) fuel
        else some (out.reverse, k.advance 1)
      else if !single && c == '"' then some (out.reverse, k.advance 1)
      else if !single && c == '\\' then
        if rest.head?.any isBreak then
          match Gap.afterHiddenBreak.read 0 (k.advance 1).skipBreak k.fuel with
          | none => none
          | some (gap, k') => readChars single (gap.text.reverse ++ out) k' fuel
        else
          match readEscape rest with
          | none => none
          | some (d, n) => readChars single (d :: out) (k.advance (n + 1)) fuel
      else readChars single (c :: out) (k.advance 1) fuel

/-- Reads a quoted scalar from its opening quote on. -/
def read (single : Bool) (k : Cursor) : Option (List Char × Cursor) :=
  readChars single [] (k.advance 1) k.fuel

end DocPath.Yaml.Quoted

import DocPath.Decimal
import DocPath.Hex

/-!
# Writing TOML values

A text is written in double quotes if nothing in it has to be escaped. Else single quotes are
tried, then three double and three single ones; what none of them can hold as it is goes into
double quotes with escapes.
-/

namespace DocPath.Toml

/-- The longest run of a quote in a text; `run` is the length of the run that the text goes on. -/
def longestRun (quote : Char) (run : Nat) : List Char → Nat
  | [] => run
  | c :: rest =>
    if c = quote then longestRun quote (run + 1) rest else max run (longestRun quote 0 rest)

/-- A character that has to be escaped. -/
def isControl (c : Char) : Bool := (c < ' ' && c != '\t' && c != '\n') || c == '\x7f'

/-- A character as it stands in double quotes. Quotes and line feeds may stand as they are where
`bare` says so. -/
def escape (c : Char) (bare : Bool) : List Char :=
  match c with
  | '\x08' => ['\\', 'b']
  | '\t' => ['\\', 't']
  | '\n' => if bare then ['\n'] else ['\\', 'n']
  | '\x0c' => ['\\', 'f']
  | '\r' => ['\\', 'r']
  | '"' => if bare then ['"'] else ['\\', '"']
  | '\\' => ['\\', '\\']
  | c => if isControl c then '\\' :: 'u' :: upperHex 4 c.toNat else [c]

/-- A text as it stands in three double quotes: of three quotes in a row the last is escaped.
`run` is the number of quotes before the text. -/
def escapeLong (run : Nat) : List Char → List Char
  | [] => []
  | c :: rest =>
    if c = '"' then
      if run < 2 then '"' :: escapeLong (run + 1) rest
      else '\\' :: '"' :: escapeLong 0 rest
    else escape c true ++ escapeLong 0 rest

/-- Three quotes around a text; a text with line feeds starts on a line of its own. -/
def triple (quote : Char) (hasBreak : Bool) (content : List Char) : List Char :=
  let quotes := List.replicate 3 quote
  quotes ++ (if hasBreak then '\n' :: content else content) ++ quotes

/-- A text in quotes. -/
def quoted (s : String) : List Char :=
  let cs := s.toList
  let hasControl := cs.any isControl
  let hasBreak := cs.contains '\n'
  let hasBackslash := cs.contains '\\'
  let doubles := longestRun '"' 0 cs
  let singles := longestRun '\x27' 0 cs
  if !hasControl && !hasBackslash && doubles = 0 && !hasBreak then
    '"' :: (cs.flatMap (escape · false) ++ ['"'])
  else if !hasControl && singles = 0 && !hasBreak then '\x27' :: (cs ++ ['\x27'])
  else if !hasControl && !hasBackslash && doubles ≤ 2 then triple '"' hasBreak (escapeLong 0 cs)
  else if !hasControl && singles ≤ 2 then triple '\x27' hasBreak cs
  else if hasBreak then triple '"' true (escapeLong 0 cs)
  else '"' :: (cs.flatMap (escape · false) ++ ['"'])

/-- Texts in brackets; two or more stand on lines of their own. -/
def quotedArray (items : List String) : List Char :=
  match items with
  | [] => ['[', ']']
  | [s] => '[' :: (quoted s ++ [']'])
  | _ => '[' :: '\n' :: (items.flatMap fun s => List.replicate 4 ' ' ++ quoted s ++ [',', '\n'])
    ++ [']']

def booleanChars : Bool → List Char
  | true => ['t', 'r', 'u', 'e']
  | false => ['f', 'a', 'l', 's', 'e']

/-- A line with a key and a value. -/
def line (key : String) (value : List Char) : List Char :=
  key.toList ++ [' ', '=', ' '] ++ value ++ ['\n']

end DocPath.Toml

import DocPath.Hex
import DocPath.Yaml.Char
import DocPath.Yaml.Schema

/-!
# How texts are written

A text with line feeds is written literally, below a header; any other one is written plainly if
it reads back as the same text, else in single quotes. What these cannot hold goes into double
quotes, where everything unprintable is escaped.
-/

namespace DocPath.Yaml

/-- How a text is written. -/
inductive Style where
  | plain
  | single
  | double
  | literal
deriving DecidableEq, Repr

/-- A character that may stand as it is. -/
def isPrintable (c : Char) : Bool :=
  let n := c.toNat
  c == '\n' || (0x20 ≤ n && n ≤ 0x7E) || (0xA0 ≤ n && n ≤ 0xFFFD && c != byteOrderMark)
    || 0x10000 ≤ n

/-- Some two neighbours in a text are related. -/
def hasPair (related : Char → Char → Bool) : List Char → Bool
  | c :: d :: rest => related c d || hasPair related (d :: rest)
  | _ => false

/-- A text that would not start a plain scalar. -/
def startsWithMark : List Char → Bool
  | [] => false
  | c :: rest =>
    isReserved c || ((c == '?' || c == ':' || c == '-') && startsWithGap rest)
      || "---".toList.isPrefixOf (c :: rest) || "...".toList.isPrefixOf (c :: rest)

/-- A text that would not be read to its end as a plain scalar. -/
def hasMark (cs : List Char) : Bool :=
  cs.getLast? == some ':'
    || hasPair (fun c d => (c == ':' && isGap d) || (isGap c && d == '#')) cs

namespace Style

def fitsPlain (cs : List Char) : Bool :=
  cs.all (fun c => isPrintable c && !isBreak c) && cs.head? != some ' ' && cs.getLast? != some ' '
    && !startsWithMark cs && !hasMark cs

/-- No space stands next to a line end. -/
def fitsSingle (cs : List Char) : Bool :=
  cs.all isPrintable
    && !hasPair (fun c d => (c == ' ' && isBreak d) || (isBreak c && d == ' ')) cs

/-- No line ends in a space. -/
def fitsLiteral (cs : List Char) : Bool :=
  cs.all isPrintable && cs.getLast? != some ' ' && !hasPair (fun c d => c == ' ' && isBreak d) cs

/-- A text that means itself as a plain scalar. Digits with a needless zero in front do not count,
as other readers take them for numbers. -/
def meansItself (s : String) : Bool :=
  match Schema.plain s with
  | some (.string _) => !Schema.isPaddedDigits s.toList
  | _ => false

/-- The style in which a text is written. -/
def ofText (s : String) : Style :=
  let cs := s.toList
  if cs.contains '\n' then if fitsLiteral cs then literal else double
  else if meansItself s && fitsPlain cs then plain
  else if fitsSingle cs then single
  else double

end Style

/-! ## Texts in a style -/

/-- A character as it stands in double quotes. -/
def escape (c : Char) : List Char :=
  match c with
  | '\x00' => ['\\', '0']
  | '\x07' => ['\\', 'a']
  | '\x08' => ['\\', 'b']
  | '\t' => ['\\', 't']
  | '\n' => ['\\', 'n']
  | '\x0b' => ['\\', 'v']
  | '\x0c' => ['\\', 'f']
  | '\r' => ['\\', 'r']
  | '\x1b' => ['\\', 'e']
  | '"' => ['\\', '"']
  | '\\' => ['\\', '\\']
  | '\u0085' => ['\\', 'N']
  | '\u2028' => ['\\', 'L']
  | '\u2029' => ['\\', 'P']
  | c =>
    if isPrintable c then [c]
    else if c.toNat ≤ 0xFF then '\\' :: 'x' :: upperHex 2 c.toNat
    else '\\' :: 'u' :: upperHex 4 c.toNat

/-- Puts spaces in front of every line that is not empty. The first line counts as one if
`fromStart` holds. -/
def padLines (indent : Nat) (fromStart : Bool) (cs : List Char) : List Char :=
  let pad := List.replicate indent ' '
  -- The text is built in reverse, so the spaces go in before the character that they precede.
  let (_, out) := cs.foldl
    (fun (lineStart, out) c =>
      if isBreak c then (true, c :: out)
      else (false, c :: (if lineStart then pad ++ out else out)))
    (fromStart, [])
  out.reverse

/-- The header of a literal text: its indentation where the first line does not show it, and what
becomes of the line ends after the last line. -/
def literalHeader (cs : List Char) : List Char :=
  let hint := if cs.head?.any fun c => c == ' ' || isBreak c then ['2'] else []
  let chomp := match cs.reverse with
    | [] => ['-']
    | [c] => if isBreak c then ['+'] else ['-']
    | c :: d :: _ => if !isBreak c then ['-'] else if isBreak d then ['+'] else []
  '|' :: (hint ++ chomp)

/-- A text as it is written; lines below its first are indented. -/
def textChars (indent : Nat) (s : String) : List Char :=
  let cs := s.toList
  match Style.ofText s with
  | .plain => cs
  | .single =>
    let doubled := cs.flatMap fun c => if c = '\x27' then ['\x27', '\x27'] else [c]
    padLines indent false ('\x27' :: (doubled ++ ['\x27']))
  | .double => '"' :: (cs.flatMap escape ++ ['"'])
  | .literal => literalHeader cs ++ '\n' :: padLines indent true cs

end DocPath.Yaml

/-!
# Character classes of YAML

A line may end in a carriage return, a line feed, both, or one of three separators beyond ASCII.
-/

namespace DocPath.Yaml

/-- A character that ends a line. -/
def isBreak (c : Char) : Bool :=
  c == '\n' || c == '\r' || c == '\u0085' || c == '\u2028' || c == '\u2029'

def isBlank (c : Char) : Bool := c == ' ' || c == '\t'

/-- A blank or a line end. -/
def isGap (c : Char) : Bool := isBlank c || isBreak c

/-- A character of names of anchors, directives and handles. -/
def isWord (c : Char) : Bool := c.isAlphanum || c == '-' || c == '_'

/-- A character that a text may hold at all. -/
def isAllowed (c : Char) : Bool :=
  let n := c.toNat
  n == 0x09 || n == 0x0A || n == 0x0D || (0x20 ≤ n && n ≤ 0x7E) || n == 0x85
    || (0xA0 ≤ n && n ≤ 0xFFFD) || 0x10000 ≤ n

/-- The mark that may stand at the start of a text. -/
def byteOrderMark : Char := '\uFEFF'

/-- A mark of flow collections. -/
def isFlowMark (c : Char) : Bool := c == ',' || c == '[' || c == ']' || c == '{' || c == '}'

/-- A character that cannot start a plain scalar whatever follows it. -/
def isReserved (c : Char) : Bool :=
  isFlowMark c || c == '#' || c == '&' || c == '*' || c == '!' || c == '|' || c == '>'
    || c == '\x27' || c == '"' || c == '%' || c == '@' || c == '\x60'

/-- The text ends here or goes on with a blank or a line end. -/
def startsWithGap : List Char → Bool
  | [] => true
  | c :: _ => isGap c

end DocPath.Yaml

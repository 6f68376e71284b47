import DocPath.Decimal

/-!
# Paths

A path names a place inside a document: a list of segments, read from the root. A segment is an
index or a key, and a key whose text is a canonical index stands for the same place as that index.
-/

namespace DocPath

/-- One step of a path. -/
inductive Segment where
  | index (i : UInt64)
  | key (name : String)
deriving DecidableEq, Repr

/-- A place inside a document; the empty path is the root. -/
abbrev Path := List Segment

namespace Segment

/-- The key that, in a pattern, stands for any one segment. -/
def wildcard : Segment := .key "*"

def isWildcard (s : Segment) : Bool := s == wildcard

def isIndex : Segment → Bool
  | index _ => true
  | key _ => false

/-- The key under which a segment is looked up in an object. -/
def text : Segment → String
  | index i => decimal i.toNat
  | key name => name

/-- Digits only, at least one, and no zero in front of another digit. -/
def isCanonicalIndex (cs : List Char) : Bool :=
  !cs.isEmpty && cs.all Char.isDigit && (cs == ['0'] || cs.head? != some '0')

/-- The index under which a segment is looked up in an array. A key counts only when it is the
text of that index. -/
def index? : Segment → Option UInt64
  | index i => some i
  | key name =>
    if isCanonicalIndex name.toList && decimalValue name.toList < UInt64.size then
      some (UInt64.ofNat (decimalValue name.toList))
    else
      none

end Segment

/-- The characters that end a bare key. -/
def isDelimiter (c : Char) : Bool := c == '.' || c == '[' || c == ']'

/-- A key that a path text can hold without brackets and quotes. -/
def isBareKey (cs : List Char) : Bool := !cs.isEmpty && !cs.any isDelimiter

end DocPath

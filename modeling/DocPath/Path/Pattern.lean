import DocPath.Path.Basic

/-!
# Patterns

A pattern is a path in which the key `*` stands for any one segment. All other segments are
compared by their text, so an index and a key with the same text are interchangeable.
-/

namespace DocPath

/-- A segment of a pattern accepts a key. -/
def Segment.acceptsKey (pattern : Segment) (key : String) : Bool :=
  pattern.isWildcard || pattern.text == key

/-- A segment of a pattern accepts a segment. -/
def Segment.accepts (pattern candidate : Segment) : Bool := pattern.acceptsKey candidate.text

/-- A pattern accepts a path of its own length, segment by segment. -/
def Path.accepts : (pattern candidate : Path) → Bool
  | [], [] => true
  | p :: ps, c :: cs => p.accepts c && Path.accepts ps cs
  | _, _ => false

/-- What is left of a pattern below a path, if its start accepts the path. -/
def Path.below? : (pattern path : Path) → Option Path
  | ps, [] => some ps
  | p :: ps, s :: path => if p.accepts s then Path.below? ps path else none
  | [], _ :: _ => none

end DocPath

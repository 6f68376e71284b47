import DocPath.Yaml.Cursor

/-!
# Gaps inside scalars

Blanks and line ends between the words of a plain or quoted scalar. A gap on one line stands for
its blanks. A single line end stands for a space, several ones for all but the first of them.
-/

namespace DocPath.Yaml

/-- A gap between words. -/
structure Gap where
  /-- The blanks of a gap on one line, in reverse. -/
  blanks : List Char
  /-- A line end has come. -/
  broken : Bool
  /-- The text of the first line end. -/
  first : List Char
  /-- The texts of the other line ends. -/
  more : List Char

namespace Gap

def empty : Gap := ⟨[], false, [], []⟩

/-- A gap that goes on after a line end that stands for nothing. -/
def afterHiddenBreak : Gap := ⟨[], true, [], []⟩

/-- What a gap stands for. -/
def text (g : Gap) : List Char :=
  if !g.broken then g.blanks.reverse
  else if g.first == ['\n'] then
    if g.more.isEmpty then [' '] else g.more
  else g.first ++ g.more

def addBlank (g : Gap) (c : Char) : Gap :=
  if g.broken then g else { g with blanks := c :: g.blanks }

def addBreak (g : Gap) (text : List Char) : Gap :=
  if g.broken then { g with more := g.more ++ text } else ⟨[], true, text, []⟩

/-- Reads blanks and line ends. On a new line a tab may not stand left of column `indent`. -/
def read (indent : Int) (g : Gap) (k : Cursor) : (fuel : Nat) → Option (Gap × Cursor)
  | 0 => none
  | fuel + 1 =>
    match k.rest with
    | [] => some (g, k)
    | c :: _ =>
      if isBlank c then
        if g.broken && k.column < indent && c == '\t' then none
        else read indent (g.addBlank c) (k.advance 1) fuel
      else if isBreak c then read indent (g.addBreak k.breakText) k.skipBreak fuel
      else some (g, k)

end Gap

end DocPath.Yaml

import DocPath.Yaml.Cursor

/-!
# Block scalars

A block scalar holds the lines below its header that are indented enough. A literal one keeps all
line ends, a folded one joins lines by spaces. The header may give the indentation and say what
becomes of the line ends after the last line: one stays, none does, or all do.
-/

namespace DocPath.Yaml.Block

/-- What becomes of the line ends after the last line. -/
inductive Chomp where
  | strip
  | clip
  | keep
deriving DecidableEq

/-- What the header of a block scalar says. -/
structure Header where
  chomp : Chomp
  /-- The indentation relative to the parent, or zero when it is not given. -/
  increment : Nat

def chomp? : Char → Option Chomp
  | '+' => some .keep
  | '-' => some .strip
  | _ => none

/-- Reads an indentation; zero is refused, and nothing given is zero. -/
def readIncrement (k : Cursor) : Option (Nat × Cursor) :=
  match k.rest with
  | [] => some (0, k)
  | c :: _ =>
    if c == '0' then none
    else if c.isDigit then some (c.toNat - '0'.toNat, k.advance 1)
    else some (0, k)

/-- Reads the two parts of a header in either order. -/
def readHeader (k : Cursor) : Option (Header × Cursor) := do
  match k.rest.head?.bind chomp? with
  | some chomp =>
    let (increment, k') ← readIncrement (k.advance 1)
    return (⟨chomp, increment⟩, k')
  | none =>
    let (increment, k') ← readIncrement k
    match k'.rest.head?.bind chomp? with
    | some chomp => return (⟨chomp, increment⟩, k'.advance 1)
    | none => return (⟨.clip, increment⟩, k')

/-- Empty lines and the indentation of the line after them. -/
structure Indentation where
  breaks : List Char
  /-- The widest indentation that was seen. -/
  widest : Nat
  cursor : Cursor

/-- Steps over empty lines and over the spaces up to column `indent`, or over all of them when
that is zero. A tab may not stand among them. -/
def readIndentation (indent : Nat) (breaks : List Char) (widest : Nat) (k : Cursor) :
    (fuel : Nat) → Option Indentation
  | 0 => none
  | fuel + 1 =>
    let spaces := (k.rest.takeWhile (· == ' ')).length
    let k' := k.advance (if indent = 0 then spaces else min spaces (indent - k.column))
    let widest' := max widest k'.column
    if (indent = 0 || k'.column < indent) && k'.next (· == '\t') then none
    else if k'.next isBreak then
      readIndentation indent (breaks ++ k'.breakText) widest' k'.skipBreak fuel
    else some ⟨breaks, widest', k'⟩

/-- The lines of a block scalar that are still to be read, and what came before them. -/
structure Lines where
  /-- The text so far, in reverse. -/
  out : List Char
  /-- The end of the last line. -/
  lineEnd : List Char
  /-- The ends of the empty lines after it. -/
  emptyLines : List Char
  /-- The last line starts with a blank. -/
  blank : Bool

/-- The text before the next line: folding turns a single line end between two lines that do not
start with blanks into a space. -/
def Lines.joint (literal : Bool) (ls : Lines) (nextBlank : Bool) : List Char :=
  if !literal && ls.lineEnd == ['\n'] && !ls.blank && !nextBlank then
    if ls.emptyLines.isEmpty then [' '] else ls.emptyLines
  else ls.lineEnd ++ ls.emptyLines

/-- Reads the lines that start at column `indent`. -/
def readLines (literal : Bool) (indent : Nat) (ls : Lines) (k : Cursor) :
    (fuel : Nat) → Option (Lines × Cursor)
  | 0 => none
  | fuel + 1 =>
    if k.column == indent && !k.atEnd then
      let blank := k.next isBlank
      let (line, k') := k.takeWhile (!isBreak ·)
      let out := line.reverse ++ ((ls.joint literal blank).reverse ++ ls.out)
      match readIndentation indent [] 0 k'.skipBreak k'.fuel with
      | none => none
      | some i => readLines literal indent ⟨out, k'.breakText, i.breaks, blank⟩ i.cursor fuel
    else some (ls, k)

/-- The text of all lines, with what the header keeps of the line ends after them. -/
def Lines.text (chomp : Chomp) (ls : Lines) : List Char :=
  ls.out.reverse ++
    match chomp with
    | .strip => []
    | .clip => ls.lineEnd
    | .keep => ls.lineEnd ++ ls.emptyLines

/-- Reads a block scalar from the mark that opens it on. `parent` is the column of the collection
around it, or -1. -/
def read (literal : Bool) (parent : Int) (k : Cursor) : Option (List Char × Cursor) := do
  let (header, k₁) ← readHeader (k.advance 1)
  let k₂ := (k₁.skipWhile isBlank).skipComment
  if !k₂.atLineEnd then none
  let k₃ := k₂.skipBreak
  let fuel := k.fuel
  -- Without an indentation in the header the first line that is not empty shows it.
  let given := if header.increment = 0 then 0 else (max parent 0).toNat + header.increment
  let first ← readIndentation given [] 0 k₃ fuel
  let indent := if given = 0 then max (max first.widest (parent + 1).toNat) 1 else given
  let (ls, k₄) ← readLines literal indent ⟨[], [], first.breaks, false⟩ first.cursor fuel
  return (ls.text header.chomp, k₄)

end DocPath.Yaml.Block

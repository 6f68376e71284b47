/-!
# File names

A file name is a text with slashes between its parts. What follows the last dot of the last part
is its extension, unless the dot comes first. Slashes at the end, and parts that are a single dot,
do not count.
-/

namespace DocPath.FileName

/-- The parts of a name, in order. -/
def parts (name : String) : List String := (name.toList.splitOn '/').map String.ofList

/-- A name in reverse without the slashes and single dots at its end. -/
def trimReverse : List Char → List Char
  | '/' :: rest => trimReverse rest
  | '.' :: '/' :: rest => trimReverse rest
  | cs => cs

/-- A name without the slashes and single dots at its end. -/
def trimmed (name : String) : List Char := (trimReverse name.toList.reverse).reverse

/-- What follows the last slash. -/
def lastPart (cs : List Char) : List Char := (cs.reverse.takeWhile (· != '/')).reverse

/-- The last part of a name, unless it leads to a directory by itself. -/
def base? (name : String) : Option (List Char) :=
  let part := lastPart (trimmed name)
  if part == [] || part == ['.'] || part == ['.', '.'] then none else some part

/-- What leads to the last part of a name, if there is a last part. -/
def parent? (name : String) : Option String :=
  match trimmed name with
  | [] => none
  | cs =>
    match cs.reverse.dropWhile (· != '/') with
    | [] => some ""
    | ['/'] => some "/"
    | _ :: above => some (String.ofList above.reverse)

/-- The extension of a part. -/
def extensionOfPart? (part : List Char) : Option (List Char) :=
  let tail := (part.reverse.takeWhile (· != '.')).reverse
  if tail.length + 1 < part.length then some tail else none

/-- The extension of a name. -/
def extension? (name : String) : Option String :=
  ((base? name).bind extensionOfPart?).map String.ofList

/-- The name of a neighbour of the file: its extension is replaced, or put behind it where there is
none. A name that leads to a directory stays as it is. -/
def withExtension (extension name : String) : String :=
  match base? name with
  | none => name
  | some part =>
    let dropped := match extensionOfPart? part with
      | some old => old.length + 1
      | none => 0
    let kept := (trimmed name).take ((trimmed name).length - dropped)
    String.ofList kept ++ "." ++ extension

end DocPath.FileName

/-!
# Document formats

A document is JSON or YAML. The format is named in any case, and a file name tells it by what
follows the last dot, after a suffix for compression has been dropped.
-/

namespace DocPath

/-- How a document is written. -/
inductive Format where
  | json
  | yaml
deriving DecidableEq, Repr

/-- A name, in lower case, that no format has. -/
structure UnknownFormat where
  name : String
deriving DecidableEq, Repr

def UnknownFormat.message (e : UnknownFormat) : String :=
  "Unknown format '" ++ e.name ++ "', expected json or yaml"

namespace Format

/-- The format with a name, whatever its case. -/
def ofName (name : String) : Except UnknownFormat Format :=
  let lower := name.toLower
  if lower = "json" then .ok json
  else if lower = "yaml" ∨ lower = "yml" then .ok yaml
  else .error ⟨lower⟩

/-- A text without a suffix that it ends in. -/
def dropSuffix (suffix cs : List Char) : List Char :=
  if suffix.isSuffixOf cs then cs.take (cs.length - suffix.length) else cs

/-- What follows the last dot, if there is a dot. -/
def lastPart? (cs : List Char) : Option (List Char) :=
  if cs.contains '.' then some (cs.reverse.takeWhile (· != '.')).reverse else none

/-- The format that a file name tells. -/
def ofFileName? (name : String) : Option Format :=
  match lastPart? (dropSuffix ['.', 'g', 'z'] name.toList) with
  | none => none
  | some part => (ofName (String.ofList part)).toOption

end Format

end DocPath

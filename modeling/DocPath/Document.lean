import DocPath.Format
import DocPath.Json.Reader
import DocPath.Json.Writer
import DocPath.Yaml.Reader
import DocPath.Yaml.Writer

/-!
# Document texts

Reading and writing values in a format. Without a format a text is tried as JSON first and as YAML
second. Before JSON is written the spaces of one level of nesting are made, as a text of their own,
which cannot be longer than `maxLength`.
-/

namespace DocPath

/-- Why a text is not a document. -/
inductive DocumentError where
  | notJson
  | notYaml
  | neither
deriving DecidableEq, Repr

def DocumentError.message : DocumentError → String
  | notJson => "Invalid JSON"
  | notYaml => "Invalid YAML"
  | neither => "Input is neither valid JSON nor valid YAML"

/-- An indentation that is longer than texts can be. -/
structure IndentOverflow where
deriving DecidableEq, Repr

def IndentOverflow.message (_ : IndentOverflow) : String := "capacity overflow"

namespace Document

section

variable [Json.DoubleReader]

/-- The value that a text spells in a format. -/
def parse (format : Option Format) (text : String) : Except DocumentError Value :=
  match format with
  | some .json => (Json.parse? text).elim (.error .notJson) .ok
  | some .yaml => (Yaml.parse? text).elim (.error .notYaml) .ok
  | none => ((Json.parse? text).or (Yaml.parse? text)).elim (.error .neither) .ok

/-- The value that a text on a command line stands for: JSON where it is JSON, else the text
itself. -/
def ofArgument (text : String) : Value := (Json.parse? text).getD (.string text)

end

/-- The most bytes that a text can have. -/
def maxLength : Nat := 0x7FFFFFFFFFFFFFFF

/-- A text with a line break at its end. -/
def endLine (text : String) : String := if text.endsWith "\n" then text else text.push '\n'

/-- The text of a value in a format, ending in a line break. YAML has an indentation of its own. -/
def render (format : Format) (indent : UInt64) (v : Value) : Except IndentOverflow String :=
  match format with
  | .json =>
    if maxLength < indent.toNat then .error {} else .ok (endLine (Json.pretty indent.toNat v))
  | .yaml => .ok (endLine (Yaml.text v))

end Document

end DocPath

import DocPath.Json.Writer
import DocPath.Yaml.Style

/-!
# Writing YAML texts

Containers are written as blocks: items behind dashes, fields behind their keys, further lines
indented by two columns per level. Items of an array that is a field stand below its key and are
not indented. Empty containers are written in brackets. A key that is long or has several lines
gets a mark of its own, and so does its value.
-/

namespace DocPath.Yaml

/-- Doubles are written as in JSON, save for the plus of the exponent and what is not finite. -/
def doubleLayout : Layout :=
  { Json.doubleLayout with
    exponentPlus := "", infinity := ".inf", negativeInfinity := "-.inf", nan := ".nan" }

def numberText : Number → String
  | .double x => doubleLayout.text x
  | n => Json.numberText n

/-- A key that a colon on the same line follows. -/
def isShortKey (key : String) : Bool := key.utf8ByteSize ≤ 128 && !key.toList.any isBreak

/-- A text with a line end behind it, unless it ends in one. -/
def endLine (cs : List Char) : String :=
  String.ofList (if cs.getLast?.any isBreak then cs else cs ++ ['\n'])

def spaces (n : Nat) : String := String.ofList (List.replicate n ' ')

/-- What stands before a value. -/
inductive Place where
  /-- The start of the text. -/
  | top
  /-- A mark that shares its line with the value. -/
  | mark
  /-- A key and its colon. Blocks start below it. -/
  | key
deriving DecidableEq

/-- What separates a scalar from what stands before it. -/
def Place.gap : Place → String
  | top => ""
  | _ => " "

/-- What separates the first line of a block from what stands before it. -/
def Place.blockGap (indent : Nat) : Place → String
  | top => ""
  | mark => " "
  | key => "\n" ++ spaces indent

mutual

/-- Writes a value behind `out`; blocks in it are indented by `indent`. -/
def write (place : Place) (indent : Nat) (out : String) : Value → String
  | .null => out ++ place.gap ++ "null\n"
  | .bool true => out ++ place.gap ++ "true\n"
  | .bool false => out ++ place.gap ++ "false\n"
  | .number n => out ++ place.gap ++ numberText n ++ "\n"
  | .string s => out ++ place.gap ++ endLine (textChars (max indent 2) s)
  | .array [] => out ++ place.gap ++ "[]\n"
  | .object [] => out ++ place.gap ++ "\x7b\x7d\n"
  | .array (v :: rest) =>
    -- Behind a key the dashes stand below the key.
    let column := if place = .key then indent - 2 else indent
    writeItems column
      (write .mark (column + 2) (out ++ place.blockGap column ++ "-") v) rest
  | .object (field :: rest) =>
    writeFields indent (writeField indent (out ++ place.blockGap indent) field) rest

/-- Writes items of an array on lines of their own. -/
def writeItems (column : Nat) (out : String) : List Value → String
  | [] => out
  | v :: rest =>
    writeItems column (write .mark (column + 2) (out ++ spaces column ++ "-") v) rest

/-- Writes fields of an object on lines of their own. -/
def writeFields (column : Nat) (out : String) : List (String × Value) → String
  | [] => out
  | field :: rest => writeFields column (writeField column (out ++ spaces column) field) rest

/-- Writes a field whose first line is indented already. -/
def writeField (column : Nat) (out : String) : String × Value → String
  | (name, v) =>
    if isShortKey name then
      write .key (column + 2) (out ++ String.ofList (textChars (column + 2) name) ++ ":") v
    else
      write .mark (column + 2)
        (out ++ "? " ++ endLine (textChars (column + 2) name) ++ spaces column ++ ":") v

end

/-- The text of a value, ending in a line end. -/
def text (v : Value) : String := write .top 0 "" v

end DocPath.Yaml

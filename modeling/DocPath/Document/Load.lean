import DocPath.Directory.Basic
import DocPath.Document
import DocPath.FileName
import DocPath.Gzip.Member

/-!
# Loading documents

A document comes from a file or from the standard input. A file is compressed if its extension is
`gz`, the standard input if it starts as compressed files do. The name of a file may tell the
format, the standard input never does.
-/

namespace DocPath

/-- Why a document cannot be loaded. -/
inductive LoadError where
  | unreadable (name : String)
  | missingCompressed
  | corrupt
  | invalid (name : String)
  | inputNotText
  | inputCorrupt
  | inputInvalid
deriving DecidableEq, Repr

def LoadError.message : LoadError → String
  | unreadable name => "Failed to read " ++ name
  | missingCompressed => "Failed to open gzipped file"
  | corrupt => "Failed to decompress gzipped file - file may be corrupted"
  | invalid name => "Failed to parse " ++ name
  | inputNotText => "Invalid UTF-8 in stdin"
  | inputCorrupt => "Failed to decompress gzipped stdin"
  | inputInvalid => "Failed to parse document from stdin"

namespace Document

/-- The name of the standard input. -/
def standardInput : String := "-"

/-- A file with this name is decompressed when it is read. -/
def isCompressed (name : String) : Bool := FileName.extension? name == some "gz"

/-- The text of what was found under a name. -/
def textOfFile (name : String) (found : Option Entry) : Except LoadError String :=
  if isCompressed name then
    match found with
    | none => .error .missingCompressed
    -- A directory can be opened, but it has no content to decompress.
    | some .directory => .error .corrupt
    | some (.file content) =>
      ((Gzip.decompress? content).bind Bytes.text?).elim (.error .corrupt) .ok
  else
    match found with
    | some (.file content) => (Bytes.text? content).elim (.error (.unreadable name)) .ok
    | _ => .error (.unreadable name)

variable [Json.DoubleReader]

/-- The document in what was found under a name. -/
def ofFile (name : String) (found : Option Entry) : Except LoadError Value := do
  let text ← textOfFile name found
  (parse (Format.ofFileName? name) text).mapError fun _ => .invalid name

/-- The document on the standard input. -/
def ofInput (bytes : Bytes) : Except LoadError Value := do
  let text ←
    if Gzip.magic.isPrefixOf bytes then
      ((Gzip.decompress? bytes).bind Bytes.text?).elim (.error .inputCorrupt) .ok
    else (Bytes.text? bytes).elim (.error .inputNotText) .ok
  (parse none text).mapError fun _ => .inputInvalid

/-- Loads the document under a name. -/
def load (d : Directory) (name : String) : Except LoadError Value := ofFile name (d.find? name)

end Document

end DocPath

import DocPath.Directory.Step
import DocPath.Document
import DocPath.FileName
import DocPath.Gzip.Member

/-!
# Saving documents

A document is written to a temporary file beside its target, which is then moved onto the target, so
that nobody sees a target that is half written. The target's name tells the format, if it can, and
whether the file is compressed.
-/

namespace DocPath

/-- Why a document is not saved. -/
inductive SaveError where
  | overflow (e : IndentOverflow)
  | notWritten (name : String)
deriving DecidableEq, Repr

def SaveError.message : SaveError → String
  | overflow e => e.message
  | notWritten name => "Failed to save " ++ name

namespace Document

/-- The name of the temporary file. -/
def temporaryName (name : String) : String := FileName.withExtension "tmp" name

/-- A file with this name is compressed when it is written. -/
def isCompressedTarget (name : String) : Bool := name.endsWith ".gz"

/-- The format in which a document is saved under a name. -/
def savedFormat (default : Format) (name : String) : Format :=
  (Format.ofFileName? name).getD default

/-- The text that is saved for a document. -/
def savedText (default : Format) (indent : UInt64) (name : String) (v : Value) :
    Except IndentOverflow String :=
  render (savedFormat default name) indent v

variable [Gzip.Encoder]

/-- What is written for a text, in the order in which it is written. -/
def savedParts (name text : String) : List Bytes :=
  let bytes := Bytes.ofText text
  if isCompressedTarget name then Gzip.Encoder.parts bytes else [bytes]

/-- The steps of saving a text under a name. -/
def saveSteps (name text : String) : List Step :=
  let temporary := temporaryName name
  .create temporary :: ((savedParts name text).map (.append temporary) ++ [.rename temporary name])

/-- Saves a document under a name. -/
def save (d : Directory) (default : Format) (indent : UInt64) (name : String) (v : Value) :
    Directory × Except SaveError Unit :=
  match savedText default indent name v with
  | .error e => (d, .error (.overflow e))
  | .ok text =>
    let (d', done) := d.run (saveSteps name text)
    (d', if done then .ok () else .error (.notWritten name))

end Document

end DocPath

import DocPath.Directory.Step
import DocPath.Path.Reader
import DocPath.Toml.Reader
import DocPath.Toml.Writer

/-!
# Configuration

Settings are kept in a TOML file. Those that the file does not give have default values, and a
file that cannot be read counts as empty.
-/

namespace DocPath

/-- The settings. -/
structure Config where
  /-- Index segments make arrays where there is nothing yet. -/
  preferArrays : Bool := false
  /-- Patterns of the paths of arrays that are joined in a merge. -/
  concatPatterns : List String := []
  /-- The name of the format that documents are written in. -/
  outputFormat : String := "json"
  /-- The number of spaces per level of nesting. -/
  indentSize : UInt64 := 2
deriving DecidableEq, Repr

/-- An indentation that is larger than numbers in TOML files can be. -/
structure IndentTooLarge where
deriving DecidableEq, Repr

def IndentTooLarge.message (_ : IndentTooLarge) : String := "out-of-range value for u64 type"

namespace Config

/-- The patterns that are paths. -/
def concatPaths (c : Config) : List Path := c.concatPatterns.filterMap Path.parse?

/-! ## Reading -/

def boolean? : Toml.Node → Option Bool
  | .scalar (.boolean b) => some b
  | _ => none

def string? : Toml.Node → Option String
  | .scalar (.string s) => some s
  | _ => none

def strings? : Toml.Node → Option (List String)
  | .array vs => vs.mapM string?
  | _ => none

def size? : Toml.Node → Option UInt64
  | .scalar (.integer i) => if 0 ≤ i then some (UInt64.ofNat i.toNat) else none
  | _ => none

/-- A setting that is absent has its default value. -/
def setting? {α : Type} (fields : Toml.Fields) (key : String) (read? : Toml.Node → Option α)
    (default : α) : Option α :=
  match Table.get? fields key with
  | none => some default
  | some v => read? v

/-- The settings in a document. -/
def ofDocument? (d : Toml.Document) : Option Config := do
  let defaults : Config := {}
  let preferArrays ← setting? d.fields "prefer_arrays" boolean? defaults.preferArrays
  let concatPatterns ← setting? d.fields "concat_patterns" strings? defaults.concatPatterns
  let outputFormat ← setting? d.fields "output_format" string? defaults.outputFormat
  let indentSize ← setting? d.fields "indent_size" size? defaults.indentSize
  return ⟨preferArrays, concatPatterns, outputFormat, indentSize⟩

/-- The settings in a text. -/
def ofText (text : String) : Config := ((Toml.parse? text).bind ofDocument?).getD {}

/-- The settings in what was found in place of the file. -/
def ofFile (found : Option Entry) : Config :=
  match found with
  | some (.file content) => ((Bytes.text? content).map ofText).getD {}
  | _ => {}

/-- The settings in a file. -/
def loadFrom (d : Directory) (name : String) : Config := ofFile (d.find? name)

/-! ## Writing -/

/-- The text of the settings. -/
def text (c : Config) : Except IndentTooLarge String :=
  if c.indentSize.toNat < 0x8000000000000000 then
    .ok (String.ofList
      (Toml.line "prefer_arrays" (Toml.booleanChars c.preferArrays)
        ++ Toml.line "concat_patterns" (Toml.quotedArray c.concatPatterns)
        ++ Toml.line "output_format" (Toml.quoted c.outputFormat)
        ++ Toml.line "indent_size" (decimal c.indentSize.toNat).toList))
  else .error {}

/-- Why settings are not saved. -/
inductive SaveError where
  | homeless
  | tooLarge (e : IndentTooLarge)
  | notWritable
deriving DecidableEq, Repr

/-- The steps of making the directories that lead to a file. -/
def directorySteps (name : String) : List Step :=
  ((FileName.parent? name).map .makeDirectories).toList

/-- The steps of writing a text to a file. -/
def writeSteps (name text : String) : List Step :=
  [.create name, .append name (Bytes.ofText text)]

/-- Saves settings under a name. The directories that lead there are made if they are not there. A
file that is there is not touched where the settings cannot be written. -/
def saveTo (d : Directory) (name : String) (c : Config) : Directory × Except SaveError Unit :=
  -- The directories are made first, also for settings that turn out not to fit.
  let (d₁, made) := d.run (directorySteps name)
  if !made then (d₁, .error .notWritable)
  else
    match c.text with
    | .error e => (d₁, .error (.tooLarge e))
    | .ok text =>
      let (d₂, written) := d₁.run (writeSteps name text)
      (d₂, if written then .ok () else .error .notWritable)

/-! ## The settings file -/

/-- The name of the settings file in a home directory. -/
def nameIn (home : String) : String := home ++ "/.config/treepath/config.toml"

/-- The settings in the home directory, if there is one. -/
def load (d : Directory) (home : Option String) : Config :=
  match home with
  | none => {}
  | some home => loadFrom d (nameIn home)

/-- Saves settings in the home directory. -/
def save (d : Directory) (home : Option String) (c : Config) : Directory × Except SaveError Unit :=
  match home with
  | none => (d, .error .homeless)
  | some home => saveTo d (nameIn home) c

end Config

end DocPath

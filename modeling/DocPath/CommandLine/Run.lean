import DocPath.CommandLine.Arguments
import DocPath.CommandLine.Host

/-!
# Runs

A run carries out a command line and ends with an exit status. Here the host is a state: a directory
tree, the rest of the standard input, which can be read once, and what has been printed.
-/

namespace DocPath.CommandLine

/-- The name and the version of the program. -/
def versionText : String := "treepath 0.1.0\n"

/-- What the program is for and what it takes. -/
def helpText : String :=
  "\n".intercalate
    ["Path-based queries and edits for JSON and YAML documents",
      "",
      "Commands:",
      "  parse PATH",
      "  get FILE PATH",
      "  set FILE PATH VALUE [--prefer-arrays]",
      "  strip FILE PATTERN...",
      "  merge BASE OVERLAY [--concat PATTERN]...",
      "  template TEXT [--var NAME=VALUE]... [--file FILE]",
      "",
      "Options:",
      "  -f, --format FORMAT",
      "  -o, --output FILE",
      "  -v, --verbose",
      "  -h, --help",
      "  -V, --version",
      ""]

/-- What is printed in place of carrying out a command line. -/
def Refusal.text : Refusal → String
  | usage => ""
  | help => helpText
  | version => versionText

/-- The exit status of a refusal. -/
def Refusal.status : Refusal → Nat
  | usage => 2
  | _ => 0

/-- What a run works on. -/
structure World where
  directory : Directory
  /-- The rest of the standard input. -/
  input : Bytes
  /-- What has been printed. -/
  printed : String

/-- The host of runs in a world. -/
def World.host : Host (StateM World) where
  find name := do return (← get).directory.find? name
  input := modifyGet fun w => (w.input, { w with input := [] })
  print text := modify fun w => { w with printed := w.printed ++ text }
  change steps := modifyGet fun w =>
    let (d, done) := w.directory.run steps
    (done, { w with directory := d })

/-- How a run ends. -/
structure Outcome where
  status : Nat
  /-- What is printed. -/
  output : String
  failure : Option Failure
  /-- The files after the run. -/
  directory : Directory

/-- What is carried out in a world. -/
abbrev Program := ExceptT Failure (StateM World)

/-- How a program ends that starts in a world. -/
def Program.outcome (program : Program Unit) (w : World) : Outcome :=
  match program.run w with
  | (.ok (), w') => ⟨0, w'.printed, none, w'.directory⟩
  | (.error e, w') => ⟨e.status, w'.printed, some e, w'.directory⟩

variable [Json.DoubleReader] [Gzip.Encoder]

/-- Carries out a request. -/
def perform (r : Request) (home : Option String) (input : Bytes) (d : Directory) : Outcome :=
  Program.outcome (r.perform World.host home) ⟨d, input, ""⟩

/-- Runs a command line. -/
def run (words : List String) (home : Option String) (input : Bytes) (d : Directory) : Outcome :=
  match readRequest words with
  | .error e => ⟨e.status, e.text, none, d⟩
  | .ok r => perform r home input d

end DocPath.CommandLine

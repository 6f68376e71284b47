import DocPath.Document.Load
import DocPath.Document.Save
import DocPath.Format
import DocPath.Path.Printer
import DocPath.Path.Reader

/-!
# Commands

What the commands are, how their operands are read, and why they fail.
-/

namespace DocPath

/-- A command on documents. They have names first and are values or errors later. -/
inductive Command (δ : Type) where
  /-- Shows the segments of a path. -/
  | parse (path : String)
  /-- Shows the value at a path. -/
  | get (document : δ) (path : String)
  /-- Writes a value at a path. -/
  | set (document : δ) (path value : String) (preferArrays : Bool)
  /-- Removes what patterns accept. -/
  | strip (document : δ) (patterns : List String)
  /-- Merges one document onto another and joins arrays whose paths patterns accept. -/
  | merge (base overlay : δ) (joining : List String)
  /-- Fills a template from variables and a document. -/
  | template (text : String) (assignments : List String) (document : Option δ)
deriving DecidableEq, Repr

/-- A command with the options that say what becomes of its document. -/
structure Request where
  /-- The name of the format of the document. -/
  format : Option String
  /-- The name of the file for the document. -/
  output : Option String
  command : Command String
deriving DecidableEq, Repr

/-- Why a command fails. -/
inductive Failure where
  | unknownFormat (e : UnknownFormat)
  | load (e : LoadError)
  | invalidPath (text : String) (cause : PathError Nat)
  | noValue (path : Path)
  | invalidVariable (text : String)
  | render (e : IndentOverflow)
  | save (e : SaveError)
deriving DecidableEq, Repr

namespace Failure

def message : Failure → String
  | unknownFormat e => e.message
  | load e => e.message
  | invalidPath text _ => "Invalid path '" ++ text ++ "'"
  | noValue path => "No value at '" ++ path.text ++ "'"
  | invalidVariable text => "Invalid --var '" ++ text ++ "', expected NAME=VALUE"
  | render e => e.message
  | save e => e.message

/-- What lies behind a failure, where it is more than the message says. -/
def cause? : Failure → Option String
  | invalidPath _ cause => some cause.message
  | _ => none

/-- The exit status. A text that cannot be made breaks a run off. -/
def status : Failure → Nat
  | render _ | save (.overflow _) => 101
  | _ => 1

end Failure

namespace Command

/-- The path that an argument has to be. -/
def readPath (text : String) : Except Failure Path :=
  (Path.parse text).mapError (.invalidPath text)

/-- The variable that an argument sets: its name stands before the first equals sign. -/
def readVariable (text : String) : Except Failure (String × String) :=
  match text.toList.dropWhile (· != '=') with
  | [] => .error (.invalidVariable text)
  | _ :: value => .ok (String.ofList (text.toList.takeWhile (· != '=')), String.ofList value)

/-- A line that shows a segment. -/
def segmentLine (s : Segment) : String :=
  (if s.isIndex then "index " else "key ") ++ s.text ++ "\n"

end Command

end DocPath

import DocPath.CommandLine.Command
import DocPath.Config
import DocPath.Template.Bindings
import DocPath.Value.Merge
import DocPath.Value.Strip

/-!
# Carrying out commands

Commands are carried out on a host, which finds files, hands out the standard input, prints and
changes files. All of it happens in the order in which the host is asked. A command that fails asks
for nothing more.
-/

namespace DocPath

/-- What a program is carried out on. -/
structure Host (m : Type → Type) where
  /-- What is found under a name. -/
  find (name : String) : m (Option Entry)
  /-- What is left of the standard input. -/
  input : m Bytes
  /-- Prints a text. -/
  print (text : String) : m Unit
  /-- Does steps up to the first one that fails, and tells whether all of them are done. -/
  change (steps : List Step) : m Bool

/-- Goes on with what there is, or fails. -/
def attempt {m : Type → Type} [Monad m] {α : Type} (x : Except Failure α) : ExceptT Failure m α :=
  .mk (pure x)

variable {m : Type → Type} [Monad m] (host : Host m)

namespace Host

/-- The settings in a home directory. -/
def settings (home : Option String) : m Config :=
  match home with
  | none => return {}
  | some home => return Config.ofFile (← host.find (Config.nameIn home))

/-- Loads the document under a name. -/
def load [Json.DoubleReader] (name : String) : ExceptT Failure m Value := .mk do
  let document ←
    if name = Document.standardInput then Document.ofInput <$> host.input
    else Document.ofFile name <$> host.find name
  return document.mapError .load

/-- Prints a document, or saves it in the file for it. -/
def emit [Gzip.Encoder] (format : Format) (indent : UInt64) (output : Option String) (v : Value) :
    ExceptT Failure m Unit :=
  match output with
  | none => do
    let text ← attempt ((Document.render format indent v).mapError .render)
    host.print text
  | some name => do
    let text ← attempt
      ((Document.savedText format indent name v).mapError fun e => .save (.overflow e))
    if ← host.change (Document.saveSteps name text) then return
    throw (.save (.notWritten name))

end Host

variable [Json.DoubleReader]

/-- Carries out a command; `emit` takes the document that it makes. -/
def Command.perform (config : Config) (emit : Value → ExceptT Failure m Unit) :
    Command String → ExceptT Failure m Unit
  | parse path => do
    let p ← attempt (readPath path)
    p.forM fun s => host.print (segmentLine s)
  | get document path => do
    let v ← host.load document
    let p ← attempt (readPath path)
    match v.get? p with
    | some w => emit w
    | none => throw (.noValue p)
  | set document path value preferArrays => do
    let v ← host.load document
    let p ← attempt (readPath path)
    let x := Document.ofArgument value
    emit (Value.set (preferArrays || config.preferArrays) (some v) p x)
  | strip document patterns => do
    let v ← host.load document
    let ps ← attempt (patterns.mapM readPath)
    emit ((v.strip ps).getD .null)
  | merge base overlay joining => do
    let b ← host.load base
    let o ← host.load overlay
    let ps ← attempt (joining.mapM readPath)
    emit ((Value.merge (config.concatPaths ++ ps) (some b) (some o)).getD .null)
  | template text assignments document => do
    let entries ← attempt (assignments.mapM readVariable)
    let v ← document.mapM host.load
    host.print (Bindings.expand ⟨Table.ofEntries entries, v⟩ text ++ "\n")

/-- Carries out a request with the settings in a home directory. -/
def Request.perform [Gzip.Encoder] (home : Option String) (r : Request) :
    ExceptT Failure m Unit := do
  let config ← host.settings home
  let format ← attempt ((Format.ofName (r.format.getD config.outputFormat)).mapError .unknownFormat)
  r.command.perform host config (host.emit format config.indentSize r.output)

end DocPath

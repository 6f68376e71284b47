import DocPath.CommandLine.Run
import DocPath.Proofs.Gzip.RoundTrip

/-!
# The program

Runs a command line on the machine, with the nearest double for every numeral and with compressed
files that hold bytes as they are.
-/

namespace DocPath.Program

open CommandLine
open scoped Json.Nearest Gzip.Stored

/-- What a name leads to. -/
def find (name : String) : IO (Option Entry) := do
  try
    let content ← IO.FS.readBinFile name
    return some (.file content.toList)
  catch e =>
    match e with
    | .noFileOrDirectory .. => return none
    | _ => return some .directory

/-- Does a step of changing files. -/
def step : Step → IO Unit
  | .create name => IO.FS.writeBinFile name ⟨#[]⟩
  | .append name content => do
    let handle ← IO.FS.Handle.mk name .append
    handle.write ⟨content.toArray⟩
  | .rename source target => IO.FS.rename source target
  | .makeDirectories name => IO.FS.createDirAll name

/-- The machine. -/
def host : Host IO where
  find := find
  input := return (← (← IO.getStdin).readBinToEnd).toList
  print := IO.print
  change steps := do
    try
      steps.forM step
      return true
    catch _ => return false

/-- Tells why a run fails. -/
def complain (e : Failure) : IO Unit := do
  IO.eprintln ("Error: " ++ e.message)
  match e.cause? with
  | some cause => IO.eprintln ("\nCaused by:\n    " ++ cause)
  | none => return

/-- Runs a command line. -/
def run (words : List String) : IO UInt32 := do
  match readRequest words with
  | .error e =>
    IO.print e.text
    return e.status.toUInt32
  | .ok r =>
    match ← (r.perform host (← IO.getEnv "HOME")).run with
    | .ok () => return 0
    | .error e =>
      complain e
      return e.status.toUInt32

end DocPath.Program

def main (words : List String) : IO UInt32 := DocPath.Program.run words

import DocPath.Directory.Basic

/-!
# Steps of changing files

Files are changed in small steps. A step is done as a whole or not at all, and a run stops at the
first step that cannot be done.
-/

namespace DocPath

/-- A step of changing files. -/
inductive Step where
  /-- Makes an empty file; one that is there loses its content. -/
  | create (name : String)
  | append (name : String) (content : Bytes)
  /-- Moves a file; one at the target is replaced. -/
  | rename (source target : String)
  /-- Makes a directory and those above it. -/
  | makeDirectories (name : String)
deriving DecidableEq, Repr

namespace Directory

/-- Makes an empty file. -/
def create? (d : Directory) (name : String) : Option Directory := do
  let place ← d.locate? name
  if d.get? place = some .directory then none else return d.put place (.file [])

/-- Writes at the end of a file. -/
def append? (d : Directory) (name : String) (content : Bytes) : Option Directory := do
  let place ← d.locate? name
  match d.get? place with
  | some (.file old) => return d.put place (.file (old ++ content))
  | _ => none

/-- Moves a file. -/
def rename? (d : Directory) (source target : String) : Option Directory := do
  let place ← d.locate? source
  let place' ← d.locate? target
  match d.get? place, d.get? place' with
  | some (.file _), some .directory => none
  -- Where both names lead to one place, the file is put back.
  | some (.file content), _ => return (d.erase place).put place' (.file content)
  | _, _ => none

/-- Makes the directories that parts of a name lead through, from a location on. -/
def makeFrom? (d : Directory) (place : Location) : List String → Option Directory
  | [] => some d
  | part :: rest =>
    if part = "" ∨ part = "." then d.makeFrom? place rest
    else if part = ".." then d.makeFrom? place.dropLast rest
    else
      match d.get? (place ++ [part]) with
      | some .directory => d.makeFrom? (place ++ [part]) rest
      | some (.file _) => none
      | none => (d.put (place ++ [part]) .directory).makeFrom? (place ++ [part]) rest

/-- Makes a directory and those above it. -/
def makeDirectories? (d : Directory) (name : String) : Option Directory :=
  if name.contains '\x00' then none else d.makeFrom? [] (d.route name)

/-- Does a step. -/
def step? (d : Directory) : Step → Option Directory
  | .create name => d.create? name
  | .append name content => d.append? name content
  | .rename source target => d.rename? source target
  | .makeDirectories name => d.makeDirectories? name

/-- Does steps one after the other, and tells whether all could be done. -/
def run (d : Directory) : List Step → Directory × Bool
  | [] => (d, true)
  | s :: rest =>
    match d.step? s with
    | some d' => d'.run rest
    | none => (d, false)

end Directory

end DocPath

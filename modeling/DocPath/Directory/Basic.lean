import DocPath.Bytes
import DocPath.FileName

/-!
# Directories

A directory tree holds files and directories at locations. A file name leads to a location if
every part of it but the last is a directory that exists; a name that ends in a slash leads to a
directory only. A name that starts with a slash is followed from the top of the tree, every other
name from the directory that one is in.
-/

namespace DocPath

/-- The names that lead from the top of a directory tree to a place in it. -/
abbrev Location := List String

/-- What a place holds. -/
inductive Entry where
  | directory
  | file (content : Bytes)
deriving DecidableEq, Repr

/-- A directory tree, and a place in it. -/
structure Directory where
  entries : List (Location × Entry)
  /-- Where names are followed from that do not start at the top. -/
  here : Location := []

namespace Directory

/-- The tree without any entries, seen from its top. -/
def empty : Directory := ⟨[], []⟩

/-- What is at a location; the top is a directory. -/
def get? (d : Directory) (place : Location) : Option Entry :=
  if place = [] then some .directory else d.entries.lookup place

/-- Takes away what is at a location. -/
def erase (d : Directory) (place : Location) : Directory :=
  { d with entries := d.entries.filter fun e => e.1 != place }

/-- Puts an entry at a location. -/
def put (d : Directory) (place : Location) (e : Entry) : Directory :=
  { d with entries := (place, e) :: (d.erase place).entries }

@[simp] theorem here_erase (d : Directory) (place : Location) : (d.erase place).here = d.here := rfl

@[simp] theorem here_put (d : Directory) (place : Location) (e : Entry) :
    (d.put place e).here = d.here := rfl

@[simp] theorem get?_top (d : Directory) : d.get? [] = some .directory := rfl

theorem get?_erase (d : Directory) (place place' : Location) (h : place' ≠ []) :
    (d.erase place).get? place' = if place' = place then none else d.get? place' := by
  simp only [get?, erase, if_neg h]
  induction d.entries with
  | nil => simp
  | cons e rest ih =>
    obtain ⟨name, entry⟩ := e
    by_cases he : name = place
    · subst he
      rw [List.filter_cons_of_neg (by simp), ih]
      by_cases hp : place' = name
      · simp [hp]
      · simp [hp, List.lookup_cons, beq_eq_false_iff_ne.2 hp]
    · rw [List.filter_cons_of_pos (by simpa using he)]
      by_cases hp : place' = name
      · subst hp
        simp [he]
      · simp only [List.lookup_cons, beq_eq_false_iff_ne.2 hp, ih]

/-- What is put at a location is found there, and nothing else changes. -/
theorem get?_put (d : Directory) (place place' : Location) (e : Entry) (h : place' ≠ []) :
    (d.put place e).get? place' = if place' = place then some e else d.get? place' := by
  have herase := get?_erase d place place' h
  simp only [get?, if_neg h] at herase ⊢
  by_cases hp : place' = place
  · simp [put, hp]
  · rw [if_neg hp] at herase ⊢
    rw [put, List.lookup_cons, beq_eq_false_iff_ne.2 hp, herase]

/-! ## Names -/

/-- The location that parts of a name lead to from a location. Nothing is above the top. -/
def follow? (d : Directory) (place : Location) : List String → Option Location
  | [] => some place
  | part :: rest =>
    if d.get? place ≠ some .directory then none
    else if part = "" ∨ part = "." then d.follow? place rest
    else if part = ".." then d.follow? place.dropLast rest
    else d.follow? (place ++ [part]) rest

/-- The parts that a name leads through from the top on. -/
def route (d : Directory) (name : String) : List String :=
  if name.startsWith "/" then (FileName.parts name).drop 1 else d.here ++ FileName.parts name

/-- The location that a name leads to. -/
def locate? (d : Directory) (name : String) : Option Location :=
  if name = "" ∨ name.contains '\x00' then none else d.follow? [] (d.route name)

/-- What a name leads to. -/
def find? (d : Directory) (name : String) : Option Entry := (d.locate? name).bind d.get?

/-- The names of all entries in order; directories have a slash at the end. -/
def listing (d : Directory) : List String :=
  let names := d.entries.map fun (place, e) =>
    "/".intercalate place ++ if e = .directory then "/" else ""
  names.mergeSort fun a b => decide (a ≤ b)

/-- The files with their names. -/
def files (d : Directory) : List (String × Bytes) :=
  d.entries.filterMap fun (place, e) =>
    match e with
    | .file content => some ("/".intercalate place, content)
    | .directory => none

end Directory

end DocPath

import DocPath.Table

/-!
# TOML documents

A document is a table of values, arrays and tables. Tables come about in four ways: by a header,
by a header of a table inside them, by a dotted key, or in braces. What may be added to a table
depends on how it came about.
-/

namespace DocPath.Toml

/-- A value without parts. Floats and dates are kept apart from the others only. -/
inductive Scalar where
  | string (s : String)
  | integer (i : Int)
  | boolean (b : Bool)
  | float
  | date
deriving DecidableEq, Repr

/-- How a table came about. -/
inductive Origin where
  | header
  | innerHeader
  | dottedKey
  | braces
deriving DecidableEq, Repr

/-- What stands under a key. -/
inductive Node where
  | scalar (s : Scalar)
  | array (elements : List Node)
  | table (origin : Origin) (fields : List (String × Node))
  /-- Tables under one header, the latest first. -/
  | rows (latest : List (String × Node)) (earlier : List (List (String × Node)))

/-- The fields of a table. -/
abbrev Fields := Table Node

namespace Fields

/-- Puts a node under a dotted key. Tables on the way are made where there are none, and those that
have a header or braces of their own are closed. `allowed` says that the table may get fields of
its own, and not only fields of tables in it. -/
def insert (v : Node) (allowed : Bool) (fields : Fields) : (key : List String) → Option Fields
  | [] => none
  | [name] =>
    if allowed && (Table.get? fields name).isNone then some (Table.put fields name v) else none
  | name :: rest =>
    -- Tables that dotted keys have made stay open to dotted keys.
    match Table.get? fields name with
    | none => (insert v true [] rest).map fun fs => Table.put fields name (.table .dottedKey fs)
    | some (.table .dottedKey fs) =>
      (insert v true fs rest).map fun fs' => Table.put fields name (.table .dottedKey fs')
    | some (.table .innerHeader fs) =>
      (insert v false fs rest).map fun fs' => Table.put fields name (.table .innerHeader fs')
    | some (.rows latest earlier) =>
      (insert v false latest rest).map fun fs => Table.put fields name (.rows fs earlier)
    | _ => none

/-- Changes the fields among which a header has its last name. Tables on the way are made where
there are none, and those in braces are closed. -/
def below (change : Fields → String → Option Fields) (fields : Fields) :
    (header : List String) → Option Fields
  | [] => none
  | [name] => change fields name
  | name :: rest =>
    match Table.get? fields name with
    | none => (below change [] rest).map fun fs => Table.put fields name (.table .innerHeader fs)
    | some (.table .braces _) => none
    | some (.table origin fs) =>
      (below change fs rest).map fun fs' => Table.put fields name (.table origin fs')
    | some (.rows latest earlier) =>
      (below change latest rest).map fun fs => Table.put fields name (.rows fs earlier)
    | _ => none

/-- Opens a table under a header. -/
def openTable (fields : Fields) (header : List String) : Option Fields :=
  fields.below
    (fun fs name =>
      match Table.get? fs name with
      | none => some (Table.put fs name (.table .header []))
      | some (.table .innerHeader inner) => some (Table.put fs name (.table .header inner))
      | _ => none)
    header

/-- Opens a further row under a header. -/
def openRow (fields : Fields) (header : List String) : Option Fields :=
  fields.below
    (fun fs name =>
      match Table.get? fs name with
      | none => some (Table.put fs name (.rows [] []))
      | some (.rows latest earlier) => some (Table.put fs name (.rows [] (latest :: earlier)))
      | _ => none)
    header

/-- Puts a node under a dotted key into the table that a header has opened. -/
def insertUnder (v : Node) (key : List String) (fields : Fields) : (header : List String) →
    Option Fields
  | [] => fields.insert v true key
  | header =>
    fields.below
      (fun fs name =>
        match Table.get? fs name with
        | some (.table origin inner) =>
          (insert v true inner key).map fun inner' => Table.put fs name (.table origin inner')
        | some (.rows latest earlier) =>
          (insert v true latest key).map fun latest' => Table.put fs name (.rows latest' earlier)
        | _ => none)
      header

end Fields

/-! ## Statements -/

/-- A line of a document. -/
inductive Statement where
  | field (key : List String) (v : Node)
  | tableHeader (key : List String)
  | rowHeader (key : List String)

/-- The fields of a document and the header that is in force. -/
structure Document where
  fields : Fields
  header : List String

namespace Document

def empty : Document := ⟨[], []⟩

/-- What a statement makes of a document. -/
def add (d : Document) : Statement → Option Document
  | .field key v => (Fields.insertUnder v key d.fields d.header).map fun fs => ⟨fs, d.header⟩
  | .tableHeader key => (d.fields.openTable key).map fun fs => ⟨fs, key⟩
  | .rowHeader key => (d.fields.openRow key).map fun fs => ⟨fs, key⟩

/-- The document that statements make up. -/
def ofStatements? (statements : List Statement) : Option Document :=
  statements.foldlM add empty

end Document

end DocPath.Toml

import DocPath.Toml.Bare
import DocPath.Toml.Quoted

/-!
# Reading TOML texts

A text is read line by line into statements, and the statements make up the document.
-/

namespace DocPath.Toml

/-! ## Gaps -/

/-- Steps over blanks. -/
def dropBlanks (cs : List Char) : List Char := cs.dropWhile fun c => c == ' ' || c == '\t'

/-- Steps over blanks, line ends and comments. -/
def dropGap? (inComment : Bool) : List Char → Option (List Char)
  | [] => some []
  | '\n' :: rest => dropGap? false rest
  | '\r' :: '\n' :: rest => dropGap? false rest
  | c :: rest =>
    if inComment then if isAllowed c then dropGap? true rest else none
    else if c = '#' then dropGap? true rest
    else if c = ' ' ∨ c = '\t' then dropGap? false rest
    else some (c :: rest)

/-- Steps over the rest of a line, where nothing but blanks and a comment may stand. -/
def dropLine? (inComment : Bool) : List Char → Option (List Char)
  | [] => some []
  | '\n' :: rest => some rest
  | '\r' :: '\n' :: rest => some rest
  | c :: rest =>
    if inComment then if isAllowed c then dropLine? true rest else none
    else if c = '#' then dropLine? true rest
    else if c = ' ' ∨ c = '\t' then dropLine? false rest
    else none

/-! ## Keys -/

/-- A character of a key without quotes. -/
def isKeyChar (c : Char) : Bool := c.isAlphanum || c == '_' || c == '-'

/-- Reads a part of a key. -/
def readName? (cs : List Char) : Option (String × List Char) :=
  match cs with
  | '"' :: rest => (readBasic? rest).map fun (s, rest') => (String.ofList s, rest')
  | '\x27' :: rest => (readLiteral? rest).map fun (s, rest') => (String.ofList s, rest')
  | _ =>
    let word := cs.takeWhile isKeyChar
    if word.isEmpty then none else some (String.ofList word, cs.dropWhile isKeyChar)

/-- Reads a key: parts with dots between them. Blanks may stand around each part. -/
def readKey? (cs : List Char) : (fuel : Nat) → Option (List String × List Char)
  | 0 => none
  | fuel + 1 => do
    let (name, rest) ← readName? (dropBlanks cs)
    match dropBlanks rest with
    | '.' :: rest' =>
      let (names, rest'') ← readKey? rest' fuel
      return (name :: names, rest'')
    | rest' => return ([name], rest')

/-! ## Values -/

/-- What reads a value and tells what follows it. -/
abbrev NodeReader := List Char → Option (Node × List Char)

/-- Reads the elements of an array and its closing bracket; `done` is what has been read, in
reverse. -/
def readElements? (read : NodeReader) (done : List Node) (cs : List Char) :
    (fuel : Nat) → Option (List Node × List Char)
  | 0 => none
  | fuel + 1 => do
    match ← dropGap? false cs with
    | ']' :: rest => return (done.reverse, rest)
    | cs' =>
      let (v, rest) ← read cs'
      match ← dropGap? false rest with
      | ',' :: rest' => readElements? read (v :: done) rest' fuel
      | ']' :: rest' => return ((v :: done).reverse, rest')
      | _ => none

/-- Reads a key, an equals sign and a value. -/
def readField? (read : NodeReader) (cs : List Char) :
    Option ((List String × Node) × List Char) := do
  let (key, rest) ← readKey? cs (cs.length + 1)
  match rest with
  | '=' :: rest' =>
    let (v, rest'') ← read (dropBlanks rest')
    return ((key, v), rest'')
  | _ => none

/-- Reads the fields of a table in braces and the closing brace. -/
def readBraces? (read : NodeReader) (fields : Fields) (cs : List Char) :
    (fuel : Nat) → Option (Fields × List Char)
  | 0 => none
  | fuel + 1 => do
    let ((key, v), rest) ← readField? read cs
    let fields' ← fields.insert v true key
    match dropBlanks rest with
    | ',' :: rest' => readBraces? read fields' rest' fuel
    | '}' :: rest' => return (fields', rest')
    | _ => none

/-- How deep values may be nested. -/
def maxDepth : Nat := 80

/-- Reads a value. -/
def readNode? : (depth : Nat) → NodeReader
  | 0, _ => none
  | depth + 1, cs =>
    match cs with
    | '[' :: rest =>
      (readElements? (readNode? depth) [] rest (rest.length + 1)).map fun (vs, rest') =>
        (.array vs, rest')
    | '{' :: rest =>
      -- Only an empty table may have nothing between its braces; no comma stands before the end.
      match dropBlanks rest with
      | '}' :: rest' => some (.table .braces [], rest')
      | rest' =>
        (readBraces? (readNode? depth) [] rest' (rest'.length + 1)).map fun (fs, rest'') =>
          (.table .braces fs, rest'')
    | '"' :: _ => (readText? cs).map fun (s, rest) => (.scalar (.string (String.ofList s)), rest)
    | '\x27' :: _ => (readText? cs).map fun (s, rest) => (.scalar (.string (String.ofList s)), rest)
    | _ => (readBare? cs).map fun (v, rest) => (.scalar v, rest)

/-! ## Statements -/

/-- Reads a statement. -/
def readStatement? (cs : List Char) : Option (Statement × List Char) :=
  match cs with
  | '[' :: '[' :: rest => do
    let (key, rest') ← readKey? rest (rest.length + 1)
    match rest' with
    | ']' :: ']' :: rest'' => return (.rowHeader key, rest'')
    | _ => none
  | '[' :: rest => do
    let (key, rest') ← readKey? rest (rest.length + 1)
    match rest' with
    | ']' :: rest'' => return (.tableHeader key, rest'')
    | _ => none
  | _ => (readField? (readNode? maxDepth) cs).map fun ((key, v), rest) => (.field key v, rest)

/-- Reads the statements of a text, each of which ends its line. -/
def readStatements? (cs : List Char) : (fuel : Nat) → Option (List Statement)
  | 0 => none
  | fuel + 1 => do
    match ← dropGap? false cs with
    | [] => return []
    | cs' =>
      let (s, rest) ← readStatement? cs'
      let rest' ← dropLine? false rest
      let later ← readStatements? rest' fuel
      return s :: later

/-- A text without a byte order mark at its start. -/
def dropMark : List Char → List Char
  | '\uFEFF' :: rest => rest
  | cs => cs

/-- The document that a text spells. -/
def parse? (text : String) : Option Document := do
  let cs := dropMark text.toList
  Document.ofStatements? (← readStatements? cs (cs.length + 1))

end DocPath.Toml

import DocPath.Yaml.Name
import DocPath.Yaml.Scalar.Block
import DocPath.Yaml.Scalar.Plain
import DocPath.Yaml.Scalar.Quoted
import DocPath.Yaml.Token

/-!
# Reading the tokens of YAML texts

Indentation opens and closes block collections. A mapping key may only turn out to be one at the
colon behind it, so a place where a key may have started is remembered, and the tokens that it
calls for are inserted there when the colon comes. Such a key stands on one line and is at most
1024 characters long.
-/

namespace DocPath.Yaml

/-- A place where a mapping key may have started. -/
structure PendingKey where
  /-- A key has to start here, since the place continues a block mapping. -/
  required : Bool
  /-- The number of tokens before the place. -/
  tokenCount : Nat
  place : Cursor

/-- The state of reading tokens. -/
structure Lexer where
  cursor : Cursor
  /-- The tokens so far, in reverse. -/
  tokens : List Token
  tokenCount : Nat
  /-- The column of the innermost block collection, or -1. -/
  indent : Int
  /-- The columns around it. -/
  outerIndents : List Int
  /-- A key may start at the next token. -/
  keyAllowed : Bool
  /-- The key that may have started in the innermost flow collection, or outside of all. -/
  pending : Option PendingKey
  /-- The same for the collections around it, one for each. -/
  outerPending : List (Option PendingKey)

namespace Lexer

def ofText (cs : List Char) : Lexer := ⟨.ofText cs, [], 0, -1, [], true, none, []⟩

def inFlow (l : Lexer) : Bool := !l.outerPending.isEmpty

def push (l : Lexer) (t : Token) : Lexer :=
  { l with tokens := t :: l.tokens, tokenCount := l.tokenCount + 1 }

/-- Inserts a token behind the first `n` tokens. -/
def insertAt (l : Lexer) (n : Nat) (t : Token) : Lexer :=
  let later := l.tokenCount - n
  { l with
    tokens := l.tokens.take later ++ t :: l.tokens.drop later
    tokenCount := l.tokenCount + 1 }

def moveTo (l : Lexer) (k : Cursor) : Lexer := { l with cursor := k }

def advance (l : Lexer) (n : Nat) : Lexer := l.moveTo (l.cursor.advance n)

def allowKey (l : Lexer) (allowed : Bool) : Lexer := { l with keyAllowed := allowed }

/-- The key at a place can no longer be continued at the cursor. -/
def isStale (l : Lexer) (key : PendingKey) : Bool :=
  key.place.line < l.cursor.line || key.place.index + 1024 < l.cursor.index

/-- Forgets a pending key that is stale, unless it is required. -/
def dropStale (l : Lexer) (key : Option PendingKey) : Option (Option PendingKey) :=
  match key with
  | none => some none
  | some p => if !l.isStale p then some (some p) else if p.required then none else some none

/-- Forgets all pending keys that are stale. -/
def dropAllStale (l : Lexer) : Option Lexer := do
  let pending ← l.dropStale l.pending
  let outer ← l.outerPending.mapM l.dropStale
  return { l with pending := pending, outerPending := outer }

/-- Gives up the innermost pending key, which may not be required. -/
def dropPending (l : Lexer) : Option Lexer :=
  if l.pending.any (·.required) then none else some { l with pending := none }

/-- Remembers that a key may start here. -/
def markKey (l : Lexer) : Option Lexer :=
  if l.keyAllowed then do
    let required := !l.inFlow && l.indent == l.cursor.column
    let l' ← l.dropPending
    return { l' with pending := some ⟨required, l.tokenCount, l.cursor⟩ }
  else some l

/-- Opens a block collection at a column that lies deeper than the innermost one. The token that
says so goes behind the first `n` tokens. -/
def openBlock (l : Lexer) (column n : Nat) (t : Token) : Lexer :=
  if !l.inFlow && l.indent < column then
    { l.insertAt n t with indent := column, outerIndents := l.indent :: l.outerIndents }
  else l

/-- Closes the block collections in a list of columns that lie deeper than a column. -/
def closeFrom (column : Int) (l : Lexer) : List Int → Lexer
  | [] => l
  | outer :: rest =>
    if column < l.indent then
      closeFrom column { l.push .blockEnd with indent := outer, outerIndents := rest } rest
    else l

/-- Closes the block collections that lie deeper than a column. -/
def closeBlocks (l : Lexer) (column : Int) : Lexer :=
  if l.inFlow then l else closeFrom column l l.outerIndents

/-! ## Between tokens -/

/-- Steps over blanks, comments and line ends. Tabs only count as blanks where no key may start. -/
def skipGap (l : Lexer) : (fuel : Nat) → Lexer
  | 0 => l
  | fuel + 1 =>
    let k := l.cursor
    let k₁ := if k.index == 0 && k.next (· == byteOrderMark) then k.advance 1 else k
    -- Where a key may start, a tab would be indentation.
    let tabs := l.inFlow || !l.keyAllowed
    let k₂ := (k₁.skipWhile fun c => c == ' ' || (tabs && c == '\t')).skipComment
    if k₂.next isBreak then
      skipGap ((l.moveTo k₂.skipBreak).allowKey (l.keyAllowed || !l.inFlow)) fuel
    else l.moveTo k₂

/-! ## Tokens -/

/-- The end of the text closes all blocks. -/
def finish (l : Lexer) : Option (List Token) := do
  let l' ← (l.closeBlocks (-1)).dropPending
  return l'.tokens.reverse

/-- Reads a directive and the rest of its line. -/
def readDirective (l : Lexer) : Option Lexer := do
  let l' ← (l.closeBlocks (-1)).dropPending
  let (name, k) := (l'.cursor.advance 1).takeWhile isWord
  if name.isEmpty || !startsWithGap k.rest then none
  let (token, k₁) ←
    if name = "YAML".toList then
      (Name.readVersion k).map fun ((major, minor), k') => (Token.version major minor, k')
    else if name = "TAG".toList then
      (Name.readTagHandle k).map fun ((handle, text), k') => (Token.tagHandle handle text, k')
    else none
  let k₂ := (k₁.skipWhile isBlank).skipComment
  if !k₂.atLineEnd then none
  return ((l'.push token).moveTo k₂.skipBreak).allowKey false

/-- Reads the mark of the start or the end of a document. -/
def readDocumentMark (l : Lexer) (t : Token) : Option Lexer := do
  let l' ← (l.closeBlocks (-1)).dropPending
  return ((l'.push t).advance 3).allowKey false

def openFlow (l : Lexer) (t : Token) : Option Lexer := do
  let l' ← l.markKey
  return { (l'.push t).advance 1 with
    pending := none
    outerPending := l'.pending :: l'.outerPending
    keyAllowed := true }

def closeFlow (l : Lexer) (t : Token) : Option Lexer := do
  let l' ← l.dropPending
  let l'' := ((l'.push t).advance 1).allowKey false
  match l''.outerPending with
  | [] => return l''
  | outer :: rest => return { l'' with pending := outer, outerPending := rest }

def readFlowEntry (l : Lexer) : Option Lexer := do
  let l' ← l.dropPending
  return ((l'.push .flowEntry).advance 1).allowKey true

/-- Opens a block collection here, where a key has to be allowed. -/
def openBlockHere (l : Lexer) (t : Token) : Option Lexer :=
  if l.inFlow then some l
  else if !l.keyAllowed then none
  else some (l.openBlock l.cursor.column l.tokenCount t)

def readBlockEntry (l : Lexer) : Option Lexer := do
  let l' ← (← l.openBlockHere .blockSequenceStart).dropPending
  return ((l'.push .blockEntry).advance 1).allowKey true

def readKey (l : Lexer) : Option Lexer := do
  let l' ← (← l.openBlockHere .blockMappingStart).dropPending
  return ((l'.push .key).advance 1).allowKey !l.inFlow

/-- Reads the colon before a value. A pending key becomes a key now; without one the key is empty
or was marked. -/
def readValue (l : Lexer) : Option Lexer :=
  match l.pending with
  | some p =>
    -- The mapping starts before its first key, so its token goes in front of the one for the key.
    let l' := (l.insertAt p.tokenCount .key).openBlock p.place.column p.tokenCount
      .blockMappingStart
    some ((({ l' with pending := none }.push .value).advance 1).allowKey false)
  | none => do
    let l' ← l.openBlockHere .blockMappingStart
    return ((l'.push .value).advance 1).allowKey !l.inFlow

def readAlias (l : Lexer) : Option Lexer := do
  let l' ← l.markKey
  let (name, k) ← Name.readAnchor l.cursor
  return ((l'.push (.alias name)).moveTo k).allowKey false

def readAnchor (l : Lexer) : Option Lexer := do
  let l' ← l.markKey
  let (name, k) ← Name.readAnchor l.cursor
  return ((l'.push (.anchor name)).moveTo k).allowKey false

def readTag (l : Lexer) : Option Lexer := do
  let l' ← l.markKey
  let ((handle, suffix), k) ← Name.readTag l.inFlow l.cursor
  return ((l'.push (.tag handle suffix)).moveTo k).allowKey false

def readBlockScalar (l : Lexer) (literal : Bool) : Option Lexer := do
  let l' ← l.dropPending
  let (text, k) ← Block.read literal l.indent l.cursor
  return ((l'.push (.scalar (String.ofList text) .block)).moveTo k).allowKey true

def readQuotedScalar (l : Lexer) (single : Bool) : Option Lexer := do
  let l' ← l.markKey
  let (text, k) ← Quoted.read single l.cursor
  return ((l'.push (.scalar (String.ofList text) .quoted)).moveTo k).allowKey false

def readPlainScalar (l : Lexer) : Option Lexer := do
  let l' ← l.markKey
  let r ← Plain.read l.inFlow (l.indent + 1) l.cursor
  return ((l'.push (.scalar (String.ofList r.text) .plain)).moveTo r.cursor).allowKey r.broken

/-- A plain scalar may start with a character, given what follows it. -/
def startsPlain (l : Lexer) (c : Char) (rest : List Char) : Bool :=
  !(isGap c || isReserved c || c == '-' || c == '?' || c == ':')
    || (c == '-' && !(rest.head?.any isBlank))
    || (!l.inFlow && (c == '?' || c == ':') && !startsWithGap rest)

/-- Reads the token that starts with a character. -/
def readToken (l : Lexer) (c : Char) (rest : List Char) : Option Lexer :=
  if l.cursor.column == 0 && c == '%' then l.readDirective
  else if l.cursor.atMarks '-' then l.readDocumentMark .documentStart
  else if l.cursor.atMarks '.' then l.readDocumentMark .documentEnd
  else if c == '[' then l.openFlow .flowSequenceStart
  else if c == '{' then l.openFlow .flowMappingStart
  else if c == ']' then l.closeFlow .flowSequenceEnd
  else if c == '}' then l.closeFlow .flowMappingEnd
  else if c == ',' then l.readFlowEntry
  else if c == '-' && startsWithGap rest then l.readBlockEntry
  else if c == '?' && (l.inFlow || startsWithGap rest) then l.readKey
  else if c == ':' && (l.inFlow || startsWithGap rest) then l.readValue
  else if c == '*' then l.readAlias
  else if c == '&' then l.readAnchor
  else if c == '!' then l.readTag
  else if c == '|' && !l.inFlow then l.readBlockScalar true
  else if c == '>' && !l.inFlow then l.readBlockScalar false
  else if c == '\x27' then l.readQuotedScalar true
  else if c == '"' then l.readQuotedScalar false
  else if l.startsPlain c rest then l.readPlainScalar
  else none

/-- Reads the tokens to the end of the text. -/
def run (l : Lexer) : (fuel : Nat) → Option (List Token)
  | 0 => none
  | fuel + 1 =>
    match (l.skipGap l.cursor.fuel).dropAllStale with
    | none => none
    | some l₁ =>
      -- A token to the left of a block closes it.
      let l₂ := l₁.closeBlocks l₁.cursor.column
      match l₂.cursor.rest with
      | [] => l₂.finish
      | c :: rest =>
        match l₂.readToken c rest with
        | none => none
        | some l₃ => run l₃ fuel

end Lexer

/-- The tokens of a text, all of whose characters have to be allowed. -/
def tokens? (cs : List Char) : Option (List Token) :=
  if cs.all isAllowed then (Lexer.ofText cs).run (cs.length + 1) else none

end DocPath.Yaml

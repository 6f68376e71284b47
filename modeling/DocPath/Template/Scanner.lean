import DocPath.Template.Basic

/-!
# Expanding a template in one pass

The text of a template is gone through once, character by character. What is plain text is written
at once; what may become a placeholder is kept in the state until it is decided. Whoever knows what
the names stand for is asked as soon as a name ends, and may remember what it was asked before.
-/

namespace DocPath.Template

/-- What the scanner is in the middle of. A place in the template is held as the text from there
on. -/
inductive State where
  | literal
  /-- Behind the dollar at `dollar`. -/
  | afterDollar (dollar : List Char)
  /-- In a name without parentheses that begins at `start`. -/
  | bareName (start : List Char)
  /-- In a name in parentheses, opened by the dollar at `dollar`; `escape` behind a dollar that may
  start an escape. -/
  | bracketName (dollar : List Char) (name : String) (escape : Bool)

/-- The text from one place of a template up to a later one. -/
def between (start stop : List Char) : String :=
  String.ofList (start.take (start.length - stop.length))

section Scan

variable {m : Type → Type} [Monad m] (resolve : String → m String)

/-- Goes over the character at a place: the text written so far and the state behind it. -/
def step (out : String) : State → (c : Char) → (rest : List Char) → m (String × State)
  | .literal, c, rest =>
    if c = '$' then return (out, .afterDollar (c :: rest))
    else return (out.push c, .literal)
  | .afterDollar dollar, c, rest =>
    if c = '$' then return (out.push '$', .literal)
    else if c = '(' then return (out, .bracketName dollar "" false)
    else if isNameChar c then return (out, .bareName (c :: rest))
    else return ((out.push '$').push c, .literal)
  | .bareName start, c, rest => do
    if isNameChar c then return (out, .bareName start)
    else
      let out := out ++ (← resolve (between start (c :: rest)))
      if c = '$' then return (out, .afterDollar (c :: rest))
      else return (out.push c, .literal)
  | .bracketName dollar name false, c, _ => do
    if c = '$' then return (out, .bracketName dollar name true)
    else if c = ')' then return (out ++ (← resolve name), .literal)
    else return (out, .bracketName dollar (name.push c) false)
  | .bracketName dollar name true, c, _ =>
    if c = '$' ∨ c = ')' then return (out, .bracketName dollar (name.push c) false)
    else return (out, .bracketName dollar ((name.push '$').push c) false)

/-- Writes what is pending at the end of a template. -/
def finish (out : String) : State → m String
  | .literal => return out
  | .afterDollar _ => return out.push '$'
  | .bareName start => return out ++ (← resolve (between start []))
  -- Never closed: all of it is text, placeholders inside included.
  | .bracketName dollar _ _ => return out ++ String.ofList dollar

def scan (out : String) (state : State) : List Char → m String
  | [] => finish resolve out state
  | c :: rest => do
    let (out, state) ← step resolve out state c rest
    scan out state rest

/-- The text of a template, with each placeholder replaced by what `resolve` answers. -/
def expandM (text : String) : m String := scan resolve "" .literal text.toList

end Scan

/-- The text of a template, with each placeholder replaced by what it stands for. -/
def expand (resolve : String → String) (text : String) : String :=
  Id.run (expandM (fun name => pure (resolve name)) text)

/-- Answers as before, and keeps the names that are asked for, in order. -/
def recording {σ : Type} (resolve : String → StateM σ String) (name : String) :
    StateM (σ × List String) String := do
  let (s, asked) ← get
  let (answer, s) := (resolve name).run s
  set (s, asked ++ [name])
  return answer

end DocPath.Template

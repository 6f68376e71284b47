import DocPath.CommandLine.Command

/-!
# Arguments

The words of a command line are the name of a command, operands and options. Options have long
names behind two dashes and short ones behind one dash; short ones can be clustered. The value of
an option is the next word, or it stands behind an equals sign or directly behind a short name.
Behind two dashes alone all words are operands. Some options can also stand before the command.
-/

namespace DocPath.CommandLine

/-- Why a command line is not carried out. -/
inductive Refusal where
  | usage
  | help
  | version
deriving DecidableEq, Repr

/-- The name of a command. -/
inductive Verb where
  | parse
  | get
  | set
  | strip
  | merge
  | template
deriving DecidableEq, Repr

namespace Verb

def ofName? : String → Option Verb
  | "parse" => some parse
  | "get" => some get
  | "set" => some set
  | "strip" => some strip
  | "merge" => some merge
  | "template" => some template
  | _ => none

/-- The number of operands that a command needs. -/
def arity : Verb → Nat
  | parse => 1
  | get => 2
  | set => 3
  | strip => 2
  | merge => 2
  | template => 1

/-- A command takes one more operand than so many. -/
def takesMore (v : Verb) (count : Nat) : Bool := v == strip || count < v.arity

end Verb

/-- An option. -/
inductive Switch where
  | format
  | output
  | verbose
  | help
  | version
  | preferArrays
  | concat
  | binding
  | file
deriving DecidableEq, Repr

namespace Switch

def ofLong? : String → Option Switch
  | "format" => some format
  | "output" => some output
  | "verbose" => some verbose
  | "help" => some help
  | "version" => some version
  | "prefer-arrays" => some preferArrays
  | "concat" => some concat
  | "var" => some binding
  | "file" => some file
  | _ => none

def ofShort? : Char → Option Switch
  | 'f' => some format
  | 'o' => some output
  | 'v' => some verbose
  | 'h' => some help
  | 'V' => some version
  | _ => none

def takesValue : Switch → Bool
  | format | output | concat | binding | file => true
  | _ => false

/-- An option that may be given several times. -/
def isRepeatable : Switch → Bool
  | concat | binding => true
  | _ => false

/-- An option may stand behind a command, or before any. -/
def isAllowed (verb? : Option Verb) : Switch → Bool
  | format | output | verbose | help => true
  | version => verb?.isNone
  | preferArrays => verb? == some .set
  | concat => verb? == some .merge
  | binding | file => verb? == some .template

end Switch

/-- The options and operands that stand before a command or behind it. -/
structure Part where
  switches : List (Switch × String) := []
  operands : List String := []

namespace Part

/-- Adds an option; two of them are carried out at once. -/
def addSwitch (p : Part) (s : Switch) (value : String) : Except Refusal Part :=
  match s with
  | .help => .error .help
  | .version => .error .version
  | _ =>
    if !s.isRepeatable && p.switches.any (·.1 == s) then .error .usage
    else .ok { p with switches := p.switches ++ [(s, value)] }

def addOperand (p : Part) (verb : Verb) (word : String) : Except Refusal Part :=
  if verb.takesMore p.operands.length then .ok { p with operands := p.operands ++ [word] }
  else .error .usage

/-- The values of an option. -/
def values (p : Part) (s : Switch) : List String :=
  (p.switches.filter (·.1 == s)).map (·.2)

def value? (p : Part) (s : Switch) : Option String := (p.values s).head?

def has (p : Part) (s : Switch) : Bool := p.switches.any (·.1 == s)

/-- Reads short options; the last one may wait for its value. -/
def readCluster (verb? : Option Verb) (p : Part) :
    List Char → Except Refusal (Part × Option Switch)
  | [] => .ok (p, none)
  | c :: rest =>
    match (Switch.ofShort? c).filter (·.isAllowed verb?) with
    | none => .error .usage
    | some s =>
      if s.takesValue then
        match rest with
        | [] => .ok (p, some s)
        | '=' :: value => (p.addSwitch s (String.ofList value)).map (·, none)
        | value => (p.addSwitch s (String.ofList value)).map (·, none)
      else
        match p.addSwitch s "" with
        | .error e => .error e
        | .ok p' => readCluster verb? p' rest

/-- Reads a long option, which may wait for its value. -/
def readLong (verb? : Option Verb) (p : Part) (cs : List Char) :
    Except Refusal (Part × Option Switch) :=
  let name := String.ofList (cs.takeWhile (· != '='))
  match (Switch.ofLong? name).filter (·.isAllowed verb?) with
  | none => .error .usage
  | some s =>
    match cs.dropWhile (· != '='), s.takesValue with
    | [], true => .ok (p, some s)
    | [], false => (p.addSwitch s "").map (·, none)
    | _ :: value, true => (p.addSwitch s (String.ofList value)).map (·, none)
    | _ :: _, false => .error .usage

/-- A word that cannot be the value of an option before it. -/
def isDashed (word : String) : Bool := word.startsWith "-" && word != "-"

/-- Reads words before a command up to its name, or behind a command up to their end. `waiting` is
the option whose value comes next. -/
def read (verb? : Option Verb) (p : Part) (waiting : Option Switch) :
    List String → Except Refusal (Part × List String)
  | [] => if waiting.isSome then .error .usage else .ok (p, [])
  | word :: rest =>
    match waiting with
    | some s =>
      if isDashed word then .error .usage
      else
        match p.addSwitch s word with
        | .error e => .error e
        | .ok p' => read verb? p' none rest
    | none =>
      match word.toList with
      -- A dash alone is an operand: it names the standard input.
      | ['-', '-'] =>
        match verb? with
        | none => .error .usage
        | some verb => (rest.foldlM (addOperand · verb) p).map (·, [])
      | '-' :: '-' :: cs =>
        match readLong verb? p cs with
        | .error e => .error e
        | .ok (p', waiting') => read verb? p' waiting' rest
      | '-' :: c :: cs =>
        match readCluster verb? p (c :: cs) with
        | .error e => .error e
        | .ok (p', waiting') => read verb? p' waiting' rest
      | _ =>
        match verb? with
        | none => .ok (p, word :: rest)
        | some verb =>
          match p.addOperand verb word with
          | .error e => .error e
          | .ok p' => read verb? p' none rest

/-- The command that a part behind its name spells. -/
def command? (p : Part) : Verb → Option (Command String)
  | .parse =>
    match p.operands with
    | [path] => some (.parse path)
    | _ => none
  | .get =>
    match p.operands with
    | [document, path] => some (.get document path)
    | _ => none
  | .set =>
    match p.operands with
    | [document, path, value] => some (.set document path value (p.has .preferArrays))
    | _ => none
  | .strip =>
    match p.operands with
    | document :: pattern :: patterns => some (.strip document (pattern :: patterns))
    | _ => none
  | .merge =>
    match p.operands with
    | [base, overlay] => some (.merge base overlay (p.values .concat))
    | _ => none
  | .template =>
    match p.operands with
    | [text] => some (.template text (p.values .binding) (p.value? .file))
    | _ => none

end Part

/-- The request that the words of a command line spell. An option behind the command overrides the
same one before it. -/
def readRequest (words : List String) : Except Refusal Request := do
  let (before, rest) ← Part.read none {} none words
  match rest with
  | [] => throw .usage
  | name :: rest' =>
    match Verb.ofName? name with
    | some verb =>
      let (behind, _) ← Part.read (some verb) {} none rest'
      match behind.command? verb with
      | none => throw .usage
      | some command =>
        return {
          format := (behind.value? .format).or (before.value? .format)
          output := (behind.value? .output).or (before.value? .output)
          command := command }
    | none =>
      if name = "help" ∧ rest'.length ≤ 1 ∧ rest'.all fun w => (Verb.ofName? w).isSome then
        throw .help
      else throw .usage

end DocPath.CommandLine

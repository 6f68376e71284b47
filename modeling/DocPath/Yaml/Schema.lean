import DocPath.Numeral
import DocPath.Yaml.Tree

/-!
# What YAML scalars mean

A plain scalar is null, a boolean, a number or else a text. Whole numbers are written in base ten,
or with a prefix in base sixteen, eight or two; those that need more than 64 bits but no more than
128 are refused. Digits with a needless zero in front are a text. Tags of the core schema ask for
one of these kinds whatever the style.
-/

namespace DocPath.Yaml.Schema

/-- What the text of a scalar is as a whole number. -/
inductive WholeNumber where
  | fits (n : Number)
  | tooLarge
  | not

def isNull (cs : List Char) : Bool :=
  cs == ['~'] || cs == "null".toList || cs == "Null".toList || cs == "NULL".toList

def readBool? (cs : List Char) : Option Bool :=
  if cs == "true".toList || cs == "True".toList || cs == "TRUE".toList then some true
  else if cs == "false".toList || cs == "False".toList || cs == "FALSE".toList then some false
  else none

/-- A text without one sign in front of it. -/
def dropSign : List Char → List Char
  | '+' :: rest => rest
  | '-' :: rest => rest
  | cs => cs

/-- Digits with a needless zero in front, with or without a sign. -/
def isPaddedDigits (cs : List Char) : Bool :=
  match dropSign cs with
  | '0' :: c :: rest => (c :: rest).all Char.isDigit
  | _ => false

/-- The number that digits in a base spell. -/
def readDigits? (base : Nat) (cs : List Char) : Option Nat :=
  if cs.isEmpty then none
  else
    cs.foldl
      (fun n c =>
        match n, hexDigit? c with
        | some n, some d => if d < base then some (n * base + d) else none
        | _, _ => none)
      (some 0)

/-- The number that digits with a prefix for their base spell. -/
def readPrefixed? : List Char → Option Nat
  | '0' :: 'x' :: rest => readDigits? 16 rest
  | '0' :: 'o' :: rest => readDigits? 8 rest
  | '0' :: 'b' :: rest => readDigits? 2 rest
  | _ => none

/-- The whole number that a text spells, of any size. -/
def readWhole? (cs : List Char) : Option Int :=
  let unsigned (cs : List Char) : Option Nat :=
    (readPrefixed? cs).or (if isPaddedDigits cs then none else readDigits? 10 cs)
  match cs with
  | '+' :: rest => (unsigned rest).map (↑·)
  | '-' :: rest => (unsigned rest).map fun n => -(n : Int)
  | rest => (unsigned rest).map (↑·)

def wholeNumber (cs : List Char) : WholeNumber :=
  match readWhole? cs with
  | none => .not
  | some i =>
    match Number.ofInt? i with
    | some n => .fits n
    | none => if -(1 <<< 127) ≤ i ∧ i < 1 <<< 128 then .tooLarge else .not

/-- The double that a text spells. What overflows a double spells none. -/
def readDouble? (cs : List Char) : Option Binary64 :=
  let unsigned := match cs with
    | '+' :: rest => rest
    | rest => rest
  if unsigned == ".inf".toList || unsigned == ".Inf".toList || unsigned == ".INF".toList then
    some (.infinity false)
  else if cs == "-.inf".toList || cs == "-.Inf".toList || cs == "-.INF".toList then
    some (.infinity true)
  else if cs == ".nan".toList || cs == ".NaN".toList || cs == ".NAN".toList then some .nan
  else
    let negative := cs.head? == some '-'
    match Numeral.read? (if negative then cs.drop 1 else unsigned) with
    | none => none
    | some n =>
      if n.whole.isEmpty && (n.fraction.getD []).isEmpty then none
      else
        let x := n.toDouble negative
        if x.isFinite then some x else none

/-- What a plain scalar without a tag means. -/
def plain (text : String) : Option Tree :=
  let cs := text.toList
  if cs.isEmpty || isNull cs then some .null
  else
    match readBool? cs with
    | some b => some (.bool b)
    | none =>
      match wholeNumber cs with
      | .fits n => some (.number n)
      | .tooLarge => none
      | .not =>
        -- A double may have such digits in front of its point, but not alone.
        if isPaddedDigits cs then some (.string text)
        else
          match readDouble? cs with
          | some x => some (.number (.double x))
          | none => some (.string text)

/-- What a scalar without a tag means. -/
def untagged (text : String) (isPlain : Bool) : Option Tree :=
  if isPlain then plain text else some (.string text)

/-- What a scalar with a tag of the core schema means. -/
def withCoreTag (tag text : String) : Option Tree :=
  let cs := text.toList
  if tag = "tag:yaml.org,2002:bool" then (readBool? cs).map .bool
  else if tag = "tag:yaml.org,2002:int" then
    match wholeNumber cs with
    | .fits n => some (.number n)
    | _ => none
  else if tag = "tag:yaml.org,2002:float" then (readDouble? cs).map fun x => .number (.double x)
  else if tag = "tag:yaml.org,2002:null" then if isNull cs then some .null else none
  else some (.string text)

/-- The name of a tag of an application: it starts with a mark, which is dropped unless it stands
alone. -/
def localTag? (tag : Option String) : Option String :=
  match tag with
  | none => none
  | some t =>
    match t.toList with
    | ['!'] => some t
    | '!' :: rest => some (String.ofList rest)
    | _ => none

/-- What a scalar means. -/
def scalar (tag : Option String) (text : String) (isPlain : Bool) : Option Tree :=
  match localTag? tag, tag with
  | some name, _ => (untagged text isPlain).map (.tagged name)
  | none, some t => withCoreTag t text
  | none, none => untagged text isPlain

/-- A collection with its tag. -/
def collection (tag : Option String) (content : Tree) : Tree :=
  match localTag? tag with
  | some name => .tagged name content
  | none => content

end DocPath.Yaml.Schema

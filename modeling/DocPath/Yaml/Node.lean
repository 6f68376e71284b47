import DocPath.Table
import DocPath.Yaml.Token

/-!
# Nodes of YAML documents

A node is a scalar, a sequence, a mapping or an alias of a node that carries an anchor. Nodes are
read from tokens by descent; the fuel of each reader counts its calls, of which there are at most
three for each token.
-/

namespace DocPath.Yaml

/-- What may stand in front of a node. -/
structure Properties where
  anchor : Option String
  tag : Option String
deriving DecidableEq, Repr

/-- A node; `Ref` tells how an alias names its target. -/
inductive Node (Ref : Type) where
  | alias (target : Ref)
  | scalar (properties : Properties) (text : String) (isPlain : Bool)
  | sequence (properties : Properties) (items : List (Node Ref))
  | mapping (properties : Properties) (entries : List (Node Ref × Node Ref))

def Properties.none : Properties := ⟨.none, .none⟩

namespace Node

/-- The node where nothing is written. -/
def nothing : Node String := scalar .none "" true

/-- The tag that a handle and a suffix stand for. -/
def resolveTag? (handles : Table String) (handle suffix : String) : Option String :=
  if handle = "" then some suffix
  else
    match handles.get? handle with
    | some text => some (text ++ suffix)
    | none =>
      if handle = "!" then some ("!" ++ suffix)
      else if handle = "!!" then some ("tag:yaml.org,2002:" ++ suffix)
      else none

/-- Reads an anchor and a tag in either order. -/
def readProperties (handles : Table String) : List Token → Option (Properties × List Token)
  | .anchor name :: .tag handle suffix :: rest =>
    (resolveTag? handles handle suffix).map fun tag => (⟨some name, some tag⟩, rest)
  | .tag handle suffix :: .anchor name :: rest =>
    (resolveTag? handles handle suffix).map fun tag => (⟨some name, some tag⟩, rest)
  | .anchor name :: rest => some (⟨some name, none⟩, rest)
  | .tag handle suffix :: rest =>
    (resolveTag? handles handle suffix).map fun tag => (⟨none, some tag⟩, rest)
  | rest => some (.none, rest)

/-- The tag that only says that a scalar is no plain one does not count. -/
def Properties.ofScalar (p : Properties) : Properties :=
  if p.tag = some "!" then { p with tag := none } else p

/-- Nothing is written at a place in a block sequence. -/
def endsBlockItem : List Token → Bool
  | .blockEntry :: _ => true
  | .blockEnd :: _ => true
  | _ => false

/-- Nothing is written at a place in a block mapping. -/
def endsBlockPart : List Token → Bool
  | .key :: _ => true
  | .value :: _ => true
  | .blockEnd :: _ => true
  | _ => false

/-- Nothing is written at a place in a sequence that shares the indentation of its mapping. -/
def endsSharedItem (ts : List Token) : Bool := endsBlockItem ts || endsBlockPart ts

/-- Nothing is written at the place of a value in a flow collection that `close` ends. -/
def endsFlowValue (close : Token) : List Token → Bool
  | [] => false
  | t :: _ => t == .flowEntry || t == close

/-- Nothing is written at the place of a key in a flow collection that `close` ends. -/
def endsFlowKey (close : Token) (ts : List Token) : Bool :=
  ts.head? == some .value || endsFlowValue close ts

/-- The comma before an item of a flow collection, which the first one does not have. -/
def skipComma (first : Bool) (ts : List Token) : Option (List Token) :=
  if first then some ts
  else
    match ts with
    | .flowEntry :: rest => some rest
    | _ => none

/-- Properties without anything behind them, which stand for an empty scalar. -/
def nothingBut (p : Properties) (ts : List Token) : Option (Node String × List Token) :=
  if p = .none then none else some (scalar p "" true, ts)

mutual

/-- Reads a node. A block collection may only start where `block` is set, and a sequence may share
the indentation of its mapping where `shared` is set. -/
def read (handles : Table String) (block shared : Bool) (ts : List Token) :
    (fuel : Nat) → Option (Node String × List Token)
  | 0 => none
  | fuel + 1 =>
    match ts with
    | .alias name :: rest => some (.alias name, rest)
    | ts =>
      match readProperties handles ts with
      | none => none
      | some (p, ts') =>
        match ts' with
        | .scalar text style :: rest =>
          some (scalar (Properties.ofScalar p) text (style == .plain), rest)
        | .flowSequenceStart :: rest =>
          (readFlowItems handles true [] rest fuel).map fun (items, r) => (sequence p items, r)
        | .flowMappingStart :: rest =>
          (readFlowPairs handles true [] rest fuel).map fun (entries, r) => (mapping p entries, r)
        | .blockEntry :: rest =>
          if shared then
            (readSharedItems handles [] (.blockEntry :: rest) fuel).map fun (items, r) =>
              (sequence p items, r)
          else nothingBut p ts'
        | .blockSequenceStart :: rest =>
          if block then
            (readBlockItems handles [] rest fuel).map fun (items, r) => (sequence p items, r)
          else nothingBut p ts'
        | .blockMappingStart :: rest =>
          if block then
            (readBlockPairs handles [] rest fuel).map fun (entries, r) => (mapping p entries, r)
          else nothingBut p ts'
        | _ => nothingBut p ts'

/-- Reads the items of a block sequence; `done` holds those so far in reverse. -/
def readBlockItems (handles : Table String) (done : List (Node String)) (ts : List Token) :
    (fuel : Nat) → Option (List (Node String) × List Token)
  | 0 => none
  | fuel + 1 =>
    match ts with
    | .blockEnd :: rest => some (done.reverse, rest)
    | .blockEntry :: rest =>
      if endsBlockItem rest then readBlockItems handles (nothing :: done) rest fuel
      else
        match read handles true false rest fuel with
        | none => none
        | some (item, rest') => readBlockItems handles (item :: done) rest' fuel
    | _ => none

/-- Reads the items of a sequence that shares the indentation of its mapping. -/
def readSharedItems (handles : Table String) (done : List (Node String)) (ts : List Token) :
    (fuel : Nat) → Option (List (Node String) × List Token)
  | 0 => none
  | fuel + 1 =>
    match ts with
    | .blockEntry :: rest =>
      if endsSharedItem rest then readSharedItems handles (nothing :: done) rest fuel
      else
        match read handles true false rest fuel with
        | none => none
        | some (item, rest') => readSharedItems handles (item :: done) rest' fuel
    | _ => some (done.reverse, ts)

/-- Reads a key or a value of a block mapping. -/
def readBlockPart (handles : Table String) (ts : List Token) :
    (fuel : Nat) → Option (Node String × List Token)
  | 0 => none
  | fuel + 1 => if endsBlockPart ts then some (nothing, ts) else read handles true true ts fuel

/-- Reads the entries of a block mapping. -/
def readBlockPairs (handles : Table String) (done : List (Node String × Node String))
    (ts : List Token) :
    (fuel : Nat) → Option (List (Node String × Node String) × List Token)
  | 0 => none
  | fuel + 1 =>
    match ts with
    | .blockEnd :: rest => some (done.reverse, rest)
    | .key :: rest =>
      match readBlockPart handles rest fuel with
      | none => none
      | some (key, .value :: rest') =>
        match readBlockPart handles rest' fuel with
        | none => none
        | some (value, rest'') => readBlockPairs handles ((key, value) :: done) rest'' fuel
      | some (key, rest') => readBlockPairs handles ((key, nothing) :: done) rest' fuel
    | _ => none

/-- Reads the value of an entry of a flow collection. -/
def readFlowValue (handles : Table String) (close : Token) (ts : List Token) :
    (fuel : Nat) → Option (Node String × List Token)
  | 0 => none
  | fuel + 1 =>
    match ts with
    | .value :: rest =>
      if endsFlowValue close rest then some (nothing, rest) else read handles false false rest fuel
    | _ => some (nothing, ts)

/-- Reads the items of a flow sequence. An item may be an entry, which stands for a mapping of its
own; an entry without a key gives up the token behind its mark. -/
def readFlowItems (handles : Table String) (first : Bool) (done : List (Node String))
    (ts : List Token) : (fuel : Nat) → Option (List (Node String) × List Token)
  | 0 => none
  | fuel + 1 =>
    match ts with
    | .flowSequenceEnd :: rest => some (done.reverse, rest)
    | ts =>
      match skipComma first ts with
      | none => none
      | some (.flowSequenceEnd :: rest) => some (done.reverse, rest)
      | some (.key :: rest) =>
        match
          if endsFlowKey .flowSequenceEnd rest then some (nothing, rest.drop 1)
          else read handles false false rest fuel
        with
        | none => none
        | some (key, rest') =>
          match readFlowValue handles .flowSequenceEnd rest' fuel with
          | none => none
          | some (value, rest'') =>
            readFlowItems handles false (mapping .none [(key, value)] :: done) rest'' fuel
      | some ts' =>
        match read handles false false ts' fuel with
        | none => none
        | some (item, rest) => readFlowItems handles false (item :: done) rest fuel

/-- Reads the entries of a flow mapping. -/
def readFlowPairs (handles : Table String) (first : Bool)
    (done : List (Node String × Node String)) (ts : List Token) :
    (fuel : Nat) → Option (List (Node String × Node String) × List Token)
  | 0 => none
  | fuel + 1 =>
    match ts with
    | .flowMappingEnd :: rest => some (done.reverse, rest)
    | ts =>
      match skipComma first ts with
      | none => none
      | some (.flowMappingEnd :: rest) => some (done.reverse, rest)
      | some (.key :: rest) =>
        match
          if endsFlowKey .flowMappingEnd rest then some (nothing, rest)
          else read handles false false rest fuel
        with
        | none => none
        | some (key, rest') =>
          match readFlowValue handles .flowMappingEnd rest' fuel with
          | none => none
          | some (value, rest'') =>
            readFlowPairs handles false ((key, value) :: done) rest'' fuel
      | some ts' =>
        match read handles false false ts' fuel with
        | none => none
        | some (key, rest) => readFlowPairs handles false ((key, nothing) :: done) rest fuel

end

/-- Reads the directives of a document: one version at most, and each handle once. -/
def readDirectives (version : Bool) (handles : Table String) :
    List Token → Option (Table String × List Token)
  | .version major minor :: rest =>
    if version || major ≠ 1 || (minor ≠ 1 && minor ≠ 2) then none
    else readDirectives true handles rest
  | .tagHandle handle text :: rest =>
    if (handles.get? handle).isSome then none
    else readDirectives version (handles.put handle text) rest
  | rest => some (handles, rest)

/-- A document starts with a directive or a mark. -/
def startsMarked : List Token → Bool
  | .version .. :: _ => true
  | .tagHandle .. :: _ => true
  | .documentStart :: _ => true
  | _ => false

/-- Nothing is written behind the mark of a document. -/
def endsDocument : List Token → Bool
  | [] => true
  | .documentEnd :: _ => true
  | ts => startsMarked ts

/-- Reads the node of a document. -/
def readRoot (ts : List Token) : Option (Node String × List Token) :=
  let fuel := 3 * ts.length + 3
  if startsMarked ts then
    match readDirectives false [] ts with
    | some (handles, .documentStart :: rest) =>
      if endsDocument rest then some (nothing, rest) else read handles true false rest fuel
    | _ => none
  else read [] true false ts fuel

/-- The node of a text with one document; a text without any has an empty node. -/
def ofTokens? (ts : List Token) : Option (Node String) :=
  match ts with
  | [] => some nothing
  | ts =>
    match readRoot ts with
    | some (node, rest) => if rest.all (· == .documentEnd) then some node else none
    | none => none

end Node

end DocPath.Yaml

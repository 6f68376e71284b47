import DocPath.Yaml.Node
import DocPath.Yaml.Schema

/-!
# Following aliases

An alias stands for the node that carries its anchor. Anchors are numbered: the number of an
anchor is the count of different names before it, also when it gives a name that is already there
to another node. An alias takes the number that its name has where it stands, and its target is
the last node that was given the number.

Collections nest 128 deep at most, aliases included, and no more aliases are followed than a
hundred for each event of the document, an event being a scalar, an alias, or the start or the end
of a collection.
-/

namespace DocPath.Yaml

/-- The anchors of a document. -/
structure Anchors where
  /-- The number that each name has at this place. -/
  numbers : Table Nat
  /-- How many nodes have carried an anchor. -/
  carriers : Nat
  /-- Which carrier was last given each number. -/
  targets : List (Nat × Nat)
  /-- The nodes of the carriers. -/
  nodes : List (Nat × Node Nat)
  /-- How many events have come. -/
  events : Nat

namespace Anchors

def none : Anchors := ⟨[], 0, [], [], 0⟩

def addEvents (a : Anchors) (n : Nat) : Anchors := { a with events := a.events + n }

/-- Numbers the anchor of a node, if it carries one, and says which carrier it is. -/
def define (a : Anchors) : Option String → Option Nat × Anchors
  | .none => (.none, a)
  | some name =>
    -- A name that is there already does not make the table longer, so numbers can repeat.
    let number := a.numbers.length
    (some a.carriers,
      { a with
        numbers := a.numbers.put name number
        carriers := a.carriers + 1
        targets := (number, a.carriers) :: a.targets })

/-- Notes the node of a carrier. -/
def note (a : Anchors) (carrier : Option Nat) (node : Node Nat) : Anchors :=
  match carrier with
  | .none => a
  | some c => { a with nodes := (c, node) :: a.nodes }

/-- The node that an alias with a number stands for. -/
def target? (a : Anchors) (number : Nat) : Option (Node Nat) :=
  (a.targets.lookup number).bind fun carrier => a.nodes.lookup carrier

end Anchors

namespace Node

mutual

/-- Replaces the names of aliases by numbers. -/
def number (a : Anchors) : Node String → Option (Node Nat × Anchors)
  | .alias name => (a.numbers.get? name).map fun n => (.alias n, a.addEvents 1)
  | .scalar p text isPlain =>
    let (carrier, a') := (a.addEvents 1).define p.anchor
    let node := .scalar p text isPlain
    some (node, a'.note carrier node)
  | .sequence p items =>
    let (carrier, a') := (a.addEvents 2).define p.anchor
    (numberItems a' [] items).map fun (items', a'') =>
      let node := .sequence p items'
      (node, a''.note carrier node)
  | .mapping p entries =>
    let (carrier, a') := (a.addEvents 2).define p.anchor
    (numberEntries a' [] entries).map fun (entries', a'') =>
      let node := .mapping p entries'
      (node, a''.note carrier node)

def numberItems (a : Anchors) (done : List (Node Nat)) :
    List (Node String) → Option (List (Node Nat) × Anchors)
  | [] => some (done.reverse, a)
  | item :: rest =>
    match number a item with
    | none => none
    | some (item', a') => numberItems a' (item' :: done) rest

def numberEntries (a : Anchors) (done : List (Node Nat × Node Nat)) :
    List (Node String × Node String) → Option (List (Node Nat × Node Nat) × Anchors)
  | [] => some (done.reverse, a)
  | (key, value) :: rest =>
    match number a key with
    | none => none
    | some (key', a') =>
      match number a' value with
      | none => none
      | some (value', a'') => numberEntries a'' ((key', value') :: done) rest

end

/-- Builds a tree from a node; the state counts the aliases that were followed. -/
abbrev Build := Node Nat → Nat → Option (Tree × Nat)

/-- The trees of the items of a sequence. -/
def buildItems (build : Build) (done : List Tree) : List (Node Nat) → Nat → Option (List Tree × Nat)
  | [], followed => some (done.reverse, followed)
  | item :: rest, followed =>
    match build item followed with
    | none => none
    | some (t, followed') => buildItems build (t :: done) rest followed'

/-- The trees of the entries of a mapping, whose keys have to differ. -/
def buildEntries (build : Build) (done : List (Tree × Tree)) :
    List (Node Nat × Node Nat) → Nat → Option (List (Tree × Tree) × Nat)
  | [], followed => some (done.reverse, followed)
  | (key, value) :: rest, followed =>
    match build key followed with
    | none => none
    | some (k, followed') =>
      if done.any fun (k', _) => k'.same k then none
      else
        match build value followed' with
        | none => none
        | some (v, followed'') => buildEntries build ((k, v) :: done) rest followed''

/-- The tree of a node that is no alias; collections need a way to build what they hold. -/
def buildHere (inner : Option Build) : Build
  | .alias _, _ => none
  | .scalar p text isPlain, followed =>
    (Schema.scalar p.tag text isPlain).map fun t => (t, followed)
  | .sequence p items, followed =>
    inner.bind fun build =>
      (buildItems build [] items followed).map fun (ts, followed') =>
        (Schema.collection p.tag (.sequence ts), followed')
  | .mapping p entries, followed =>
    inner.bind fun build =>
      (buildEntries build [] entries followed).map fun (es, followed') =>
        (Schema.collection p.tag (.mapping es), followed')

/-- The tree of a node, following an alias first. -/
def buildAt (a : Anchors) (inner : Option Build) : Build
  | .alias n, followed =>
    if a.events * 100 < followed + 1 then none
    else
      match a.target? n with
      | none => none
      | some node => buildHere inner node (followed + 1)
  | node, followed => buildHere inner node followed

/-- The tree of a node whose collections nest at most `depth` deep. -/
def build (a : Anchors) : (depth : Nat) → Build
  | 0 => buildAt a none
  | depth + 1 => buildAt a (some (build a depth))

/-- The tree of the node of a document. -/
def toTree? (node : Node String) : Option Tree :=
  match number .none node with
  | none => none
  | some (node', a) => (build a 128 node' 0).map (·.1)

end Node

end DocPath.Yaml

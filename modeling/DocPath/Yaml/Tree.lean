import DocPath.Value.Text

/-!
# Trees of YAML documents

A tree is what a document holds once its aliases are followed and its scalars are resolved. Keys
are trees of any kind, and tags are kept. The value of a tree has its tags dropped and its keys
replaced by their text.
-/

namespace DocPath.Yaml

/-- What a document holds. -/
inductive Tree where
  | null
  | bool (b : Bool)
  | number (n : Number)
  | string (s : String)
  | sequence (items : List Tree)
  | mapping (entries : List (Tree × Tree))
  | tagged (tag : String) (content : Tree)

namespace Tree

/-- Doubles as keys: a NaN equals itself. -/
def sameNumber : Number → Number → Bool
  | .double x, .double y => x.isNaN && y.isNaN || x.same y
  | m, n => m.same n

/-- A tag without the mark in front of it. -/
def bareTag (tag : String) : List Char :=
  match tag.toList with
  | '!' :: c :: rest => c :: rest
  | cs => cs

mutual

/-- Trees are the same as keys: the order of entries does not count. -/
def same : Tree → Tree → Bool
  | null, null => true
  | bool a, bool b => a == b
  | number m, number n => sameNumber m n
  | string s, string t => s == t
  | sequence xs, sequence ys => sameItems xs ys
  | mapping es, mapping fs => es.length == fs.length && sameEntries es fs
  | tagged s x, tagged t y => bareTag s == bareTag t && same x y
  | _, _ => false

def sameItems : List Tree → List Tree → Bool
  | [], [] => true
  | x :: xs, y :: ys => same x y && sameItems xs ys
  | _, _ => false

/-- Each of some entries has its counterpart among others. -/
def sameEntries : List (Tree × Tree) → List (Tree × Tree) → Bool
  | [], _ => true
  | (key, v) :: rest, others =>
    others.any (fun (key', v') => same key key' && same v v') && sameEntries rest others

end

mutual

/-- The value of a tree. -/
def toValue : Tree → Value
  | null => .null
  | bool b => .bool b
  | number n => .number n
  | string s => .string s
  | sequence items => .array (toValues items)
  | mapping entries => .object (Table.ofEntries (toFields entries))
  | tagged _ content => toValue content

def toValues : List Tree → List Value
  | [] => []
  | t :: rest => toValue t :: toValues rest

/-- The fields of a mapping; keys that differ may have the same text. -/
def toFields : List (Tree × Tree) → List (String × Value)
  | [] => []
  | (key, t) :: rest => ((toValue key).text, toValue t) :: toFields rest

end

end Tree

end DocPath.Yaml

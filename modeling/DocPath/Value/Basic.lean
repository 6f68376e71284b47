import DocPath.Table
import DocPath.Binary64.Basic

/-!
# Document values

A value is a scalar, an array or an object whose fields keep their order. Whole numbers that fit
64 bits with a sign are kept apart from those that only fit without one, and both from doubles.
-/

namespace DocPath

/-- A number, as wide as its text needs it. -/
inductive Number where
  | int (i : Int64)
  | nat (n : UInt64)
  | double (x : Binary64)
deriving DecidableEq, Repr

/-- A document value. -/
inductive Value where
  | null
  | bool (b : Bool)
  | number (n : Number)
  | string (s : String)
  | array (elements : List Value)
  | object (fields : List (String × Value))
deriving Repr, Inhabited

namespace Number

/-- The number of a whole number that fits 64 bits, with a sign if it can. -/
def ofInt? (i : Int) : Option Number :=
  if -0x8000000000000000 ≤ i ∧ i < 0x8000000000000000 then some (int (Int64.ofInt i))
  else if 0 ≤ i ∧ i < UInt64.size then some (nat (UInt64.ofNat i.toNat))
  else none

/-- The nearest double. -/
def toDouble : Number → Binary64
  | int i => .ofInt i.toInt
  | nat n => .ofInt n.toNat
  | double x => x

/-- Numbers of one kind compare as numbers; those of different kinds are never the same. -/
def same : Number → Number → Bool
  | int i, int j => i == j
  | nat m, nat n => m == n
  | double x, double y => x.same y
  | _, _ => false

end Number

namespace Value

def isContainer : Value → Bool
  | array _ => true
  | object _ => true
  | _ => false

/-- The name of a value's kind. -/
def kind : Value → String
  | null => "null"
  | bool _ => "boolean"
  | number _ => "number"
  | string _ => "string"
  | array _ => "array"
  | object _ => "object"

/-- The number of elements or fields of a container. -/
def size? : Value → Option Nat
  | array elements => some elements.length
  | object fields => some fields.length
  | _ => none

mutual

/-- Values are the same when they differ in the order of object fields at most. Doubles compare as
numbers. -/
def same : Value → Value → Bool
  | null, null => true
  | bool a, bool b => a == b
  | number m, number n => m.same n
  | string s, string t => s == t
  | array xs, array ys => sameElements xs ys
  | object fs, object gs => fs.length == gs.length && sameFields fs gs
  | _, _ => false

def sameElements : List Value → List Value → Bool
  | [], [] => true
  | x :: xs, y :: ys => same x y && sameElements xs ys
  | _, _ => false

/-- Each of some fields has its counterpart in a table. -/
def sameFields : List (String × Value) → Table Value → Bool
  | [], _ => true
  | (key, v) :: rest, gs =>
    (match gs.get? key with
      | some w => same v w
      | none => false)
    && sameFields rest gs

end

end Value

end DocPath

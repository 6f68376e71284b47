import DocPath.Path.Basic
import DocPath.Value.Basic

/-!
# Reading and writing at a path

Reading follows a path segment by segment: the fields of an object by the text of a segment, the
elements of an array by its index. Scalars have no children.

Writing picks at each segment the slot to fill, in the container that is there when it fits the
segment and in a fresh one when it does not. An array is padded with nulls up to a limit; an index
beyond it turns the array into an object, so that a read finds the write in every case.
-/

namespace DocPath

/-- The longest distance behind the end of an array that a write pads over. -/
def maxPadding : Nat := 65536

/-- An index that lies in an array of a given length or near enough behind it. -/
def withinPadding (i length : Nat) : Bool := i - length ≤ maxPadding

/-- The place of a child in a container, whether a child is there or not. -/
inductive Slot where
  | element (elements : List Value) (i : Nat)
  | field (fields : Table Value) (key : String)

namespace Slot

/-- The child in a slot. -/
def child? : Slot → Option Value
  | element elements i => elements[i]?
  | field fields key => fields.get? key

/-- The container with its slot filled, an array first padded with nulls to reach it. -/
def fill : Slot → Value → Value
  | element elements i, v =>
    .array ((elements ++ List.replicate (i + 1 - elements.length) Value.null).set i v)
  | field fields key, v => .object (fields.put key v)

end Slot

namespace Value

/-- The fields that stand for the elements of an array: each under the text of its index. -/
def indexedFields (elements : List Value) : Table Value :=
  elements.zipIdx.map fun (v, i) => (decimal i, v)

/-- The child of a value that a segment names. -/
def child? : Value → Segment → Option Value
  | object fields, s => Table.get? fields s.text
  | array elements, s => s.index?.bind fun i => elements[i.toNat]?
  | _, _ => none

/-- The value at a path. -/
def get? (v : Value) : Path → Option Value
  | [] => some v
  | s :: p => (v.child? s).bind fun w => w.get? p

/-- The slot in a container of its own for a segment that nothing fits. -/
def freshSlot (preferArrays : Bool) (s : Segment) : Slot :=
  match s with
  | .index i =>
    if preferArrays && withinPadding i.toNat 0 then .element [] i.toNat else .field [] s.text
  | .key _ => .field [] s.text

/-- The slot that a write fills at a segment. A key needs an object. An index takes an array, or
an object unless arrays are preferred and the index is near enough for one. -/
def slotFor (preferArrays : Bool) (v : Option Value) (s : Segment) : Slot :=
  match v, s with
  | some (.array elements), .index i =>
    if withinPadding i.toNat elements.length then .element elements i.toNat
    -- Too far away for padding: the elements stay readable under the texts of their indices.
    else .field (indexedFields elements) s.text
  | some (.object fields), .index i =>
    if preferArrays && withinPadding i.toNat 0 then freshSlot preferArrays s
    else .field fields s.text
  | some (.object fields), .key _ => .field fields s.text
  | _, _ => freshSlot preferArrays s

/-- The value with `x` written at a path; without a value the path is built from nothing. -/
def set (preferArrays : Bool) (v : Option Value) : Path → Value → Value
  | [], x => x
  | s :: p, x =>
    let slot := slotFor preferArrays v s
    slot.fill (set preferArrays slot.child? p x)

end Value

end DocPath

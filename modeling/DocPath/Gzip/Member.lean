import DocPath.Gzip.Checksum
import DocPath.Gzip.Inflate

/-!
# Compressed files

A compressed file is a header, compressed data, the checksum of the bytes and their number. What
follows is not looked at. The header may have extra fields, a name, a comment and a checksum of its
own.

There are many ways to compress the same bytes. All that counts is that they can be read again; the
simplest way is a plain header and blocks of bytes as they are.
-/

namespace DocPath.Gzip

/-- The two bytes that compressed files start with. -/
def magic : List UInt8 := [0x1F, 0x8B]

/-! ## Reading -/

/-- Steps over bytes up to a zero. -/
def dropText? (bytes : List UInt8) : Option (List UInt8) :=
  match bytes.dropWhile (· != 0) with
  | [] => none
  | _ :: rest => some rest

/-- Steps over a field with its length in front. -/
def dropExtra? (bytes : List UInt8) : Option (List UInt8) := do
  let (size, rest) ← readNumber? 2 bytes
  if rest.length < size then none else return rest.drop size

/-- Applies a step of reading if a flag is set. -/
def ifFlag (flags : UInt8) (bit : Nat) (step : List UInt8 → Option (List UInt8))
    (bytes : List UInt8) : Option (List UInt8) :=
  if flags.toNat.testBit bit then step bytes else some bytes

/-- The bytes behind the header. -/
def dropHeader? (bytes : List UInt8) : Option (List UInt8) :=
  match bytes with
  | id₁ :: id₂ :: method :: flags :: _ :: _ :: _ :: _ :: _ :: _ :: rest => do
    if [id₁, id₂] ≠ magic ∨ method ≠ 8 ∨ 0x20 ≤ flags then none
    let rest₁ ← ifFlag flags 2 dropExtra? rest
    let rest₂ ← ifFlag flags 3 dropText? rest₁
    let rest₃ ← ifFlag flags 4 dropText? rest₂
    -- The checksum of the header covers all that comes before it.
    let header := bytes.take (bytes.length - rest₃.length)
    ifFlag flags 1
      (fun r => do
        let (sum, r') ← readNumber? 2 r
        if sum = (checksum header).toNat % UInt16.size then return r' else none)
      rest₃
  | _ => none

/-- The bytes that a compressed file stands for. -/
def decompress? (bytes : List UInt8) : Option (List UInt8) := do
  let (content, rest) ← inflate? (← dropHeader? bytes)
  let (sum, rest') ← readNumber? 4 rest
  let (size, _) ← readNumber? 4 rest'
  if sum = (checksum content).toNat ∧ size = content.length % UInt32.size then
    return content
  else none

/-! ## Writing -/

/-- A way to compress bytes. -/
class Encoder where
  /-- The parts of the compressed file, in the order in which they are written. -/
  parts (bytes : List UInt8) : List (List UInt8)
  decompress?_parts (bytes : List UInt8) : decompress? (parts bytes).flatten = some bytes

/-- A compressed file that stands for some bytes. -/
def compress [Encoder] (bytes : List UInt8) : List UInt8 := (Encoder.parts bytes).flatten

/-! ### Bytes as they are -/

/-- The most bytes that a block holds as they are. -/
def maxStored : Nat := 65535

/-- A block of bytes as they are. -/
def storedBlock (last : Bool) (bytes : List UInt8) : List UInt8 :=
  (if last then 1 else 0) :: (numberBytes 2 bytes.length ++ numberBytes 2 (0xFFFF - bytes.length)
    ++ bytes)

/-- Bytes in blocks as they are. -/
def storedBlocks (bytes : List UInt8) : List UInt8 :=
  if _h : bytes.length ≤ maxStored then storedBlock true bytes
  else storedBlock false (bytes.take maxStored) ++ storedBlocks (bytes.drop maxStored)
termination_by bytes.length
decreasing_by
  simp only [List.length_drop, maxStored] at *
  omega

/-- The header and the data of a compressed file. -/
def body (bytes : List UInt8) : List UInt8 :=
  magic ++ [8, 0, 0, 0, 0, 0, 0, 255] ++ storedBlocks bytes

/-- What follows the data: the checksum and the number of the bytes. -/
def trailer (bytes : List UInt8) : List UInt8 :=
  numberBytes 4 (checksum bytes).toNat ++ numberBytes 4 (bytes.length % UInt32.size)

end DocPath.Gzip

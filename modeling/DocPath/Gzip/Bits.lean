/-!
# Bits of bytes

Bytes are read bit by bit from their low end. Numbers are read from their lowest bit on.
-/

namespace DocPath.Gzip

/-- The bits of a byte, lowest first. -/
def bitsOfByte (b : UInt8) : List Bool := (List.range 8).map b.toNat.testBit

/-- Bits that are still to be read. -/
structure Bits where
  /-- Those of the byte that has been begun. -/
  begun : List Bool
  bytes : List UInt8

namespace Bits

def ofBytes (bytes : List UInt8) : Bits := ⟨[], bytes⟩

/-- The number of bits. -/
def count (bs : Bits) : Nat := bs.begun.length + 8 * bs.bytes.length

def next? (bs : Bits) : Option (Bool × Bits) :=
  match bs.begun, bs.bytes with
  | b :: rest, bytes => some (b, ⟨rest, bytes⟩)
  | [], [] => none
  | [], byte :: bytes =>
    match bitsOfByte byte with
    | [] => none
    | b :: rest => some (b, ⟨rest, bytes⟩)

/-- Reads a number of so many bits. -/
def number? (bs : Bits) : (width : Nat) → Option (Nat × Bits)
  | 0 => some (0, bs)
  | width + 1 => do
    let (b, bs₁) ← bs.next?
    let (n, bs₂) ← bs₁.number? width
    return (b.toNat + 2 * n, bs₂)

/-- The bytes behind the one that has been begun. -/
def wholeBytes (bs : Bits) : List UInt8 := bs.bytes

end Bits

/-- Reads a number of so many bytes, lowest byte first. -/
def readNumber? : (width : Nat) → List UInt8 → Option (Nat × List UInt8)
  | 0, bytes => some (0, bytes)
  | _ + 1, [] => none
  | width + 1, b :: rest =>
    (readNumber? width rest).map fun (n, rest') => (b.toNat + 256 * n, rest')

/-- The bytes of a number, lowest first. -/
def numberBytes (width n : Nat) : List UInt8 :=
  match width with
  | 0 => []
  | width + 1 => UInt8.ofNat n :: numberBytes width (n / 256)

end DocPath.Gzip

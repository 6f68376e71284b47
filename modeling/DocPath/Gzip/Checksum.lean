/-!
# Cyclic redundancy checks

The 32-bit checksum that compressed files carry. Bits enter at the low end, the register starts
with all bits set and is complemented at the end.
-/

namespace DocPath.Gzip

/-- Shifts one bit out of the register. -/
def shiftBit (register : UInt32) : UInt32 :=
  if register &&& 1 = 1 then (register >>> 1) ^^^ 0xEDB88320 else register >>> 1

/-- Takes a byte into the register. -/
def addByte (register : UInt32) (b : UInt8) : UInt32 :=
  Nat.repeat shiftBit 8 (register ^^^ b.toUInt32)

/-- The checksum of some bytes. -/
def checksum (bytes : List UInt8) : UInt32 := bytes.foldl addByte 0xFFFFFFFF ^^^ 0xFFFFFFFF

end DocPath.Gzip

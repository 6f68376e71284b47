import DocPath.Gzip.Huffman

/-!
# Compressed data

Compressed data comes in blocks. A block holds bytes as they are, or symbols in a fixed code or in
a code of its own. A symbol is a byte, the end of the block, or a length, behind which a distance
follows: so many bytes are repeated from so far back.
-/

namespace DocPath.Gzip

/-- A symbol that stands for a range of numbers: its least number, and how many further bits say
which one is meant. -/
structure Range where
  least : Nat
  bits : Nat

/-- The lengths that the symbols from 257 on stand for. -/
def lengthRanges : List Range :=
  [⟨3, 0⟩, ⟨4, 0⟩, ⟨5, 0⟩, ⟨6, 0⟩, ⟨7, 0⟩, ⟨8, 0⟩, ⟨9, 0⟩, ⟨10, 0⟩, ⟨11, 1⟩, ⟨13, 1⟩, ⟨15, 1⟩,
    ⟨17, 1⟩, ⟨19, 2⟩, ⟨23, 2⟩, ⟨27, 2⟩, ⟨31, 2⟩, ⟨35, 3⟩, ⟨43, 3⟩, ⟨51, 3⟩, ⟨59, 3⟩, ⟨67, 4⟩,
    ⟨83, 4⟩, ⟨99, 4⟩, ⟨115, 4⟩, ⟨131, 5⟩, ⟨163, 5⟩, ⟨195, 5⟩, ⟨227, 5⟩, ⟨258, 0⟩]

/-- The distances that symbols stand for. -/
def distanceRanges : List Range :=
  [⟨1, 0⟩, ⟨2, 0⟩, ⟨3, 0⟩, ⟨4, 0⟩, ⟨5, 1⟩, ⟨7, 1⟩, ⟨9, 2⟩, ⟨13, 2⟩, ⟨17, 3⟩, ⟨25, 3⟩, ⟨33, 4⟩,
    ⟨49, 4⟩, ⟨65, 5⟩, ⟨97, 5⟩, ⟨129, 6⟩, ⟨193, 6⟩, ⟨257, 7⟩, ⟨385, 7⟩, ⟨513, 8⟩, ⟨769, 8⟩,
    ⟨1025, 9⟩, ⟨1537, 9⟩, ⟨2049, 10⟩, ⟨3073, 10⟩, ⟨4097, 11⟩, ⟨6145, 11⟩, ⟨8193, 12⟩,
    ⟨12289, 12⟩, ⟨16385, 13⟩, ⟨24577, 13⟩]

/-- Reads which number of the range of a symbol is meant. -/
def readInRange? (ranges : List Range) (symbol : Nat) (bs : Bits) : Option (Nat × Bits) := do
  let range ← ranges[symbol]?
  let (n, bs') ← bs.number? range.bits
  return (range.least + n, bs')

/-- Repeats a number of bytes from a distance back. -/
def repeatFrom? (out : Array UInt8) (distance : Nat) : (length : Nat) → Option (Array UInt8)
  | 0 => some out
  | length + 1 =>
    if distance ≤ out.size then
      match out[out.size - distance]? with
      | some b => repeatFrom? (out.push b) distance length
      | none => none
    else none

/-- The two codes of a block. -/
structure Codes where
  symbols : Huffman
  distances : Huffman

/-- Reads the symbols of a block to its end. -/
def readSymbols? (codes : Codes) (out : Array UInt8) (bs : Bits) :
    (fuel : Nat) → Option (Array UInt8 × Bits)
  | 0 => none
  | fuel + 1 =>
    match codes.symbols.read? bs with
    | none => none
    | some (symbol, bs₁) =>
      if symbol < 256 then readSymbols? codes (out.push (UInt8.ofNat symbol)) bs₁ fuel
      else if symbol = 256 then some (out, bs₁)
      else
        match readInRange? lengthRanges (symbol - 257) bs₁ with
        | none => none
        | some (length, bs₂) =>
          match codes.distances.read? bs₂ with
          | none => none
          | some (symbol', bs₃) =>
            match readInRange? distanceRanges symbol' bs₃ with
            | none => none
            | some (distance, bs₄) =>
              match repeatFrom? out distance length with
              | none => none
              | some out' => readSymbols? codes out' bs₄ fuel

/-! ## Codes of blocks -/

def fixedCodes? : Option Codes := do
  let symbols ← Huffman.ofLengths? (List.replicate 144 8 ++ List.replicate 112 9
    ++ List.replicate 24 7 ++ List.replicate 8 8)
  let distances ← Huffman.ofLengths? (List.replicate 32 5)
  return ⟨symbols, distances⟩

/-- The order in which the lengths of the code for lengths come. -/
def lengthOrder : List Nat := [16, 17, 18, 0, 8, 7, 9, 6, 10, 5, 11, 4, 12, 3, 13, 2, 14, 1, 15]

/-- Reads numbers of three bits each. -/
def readTriples? : (count : Nat) → Bits → Option (List Nat × Bits)
  | 0, bs => some ([], bs)
  | count + 1, bs => do
    let (n, bs₁) ← bs.number? 3
    let (rest, bs₂) ← readTriples? count bs₁
    return (n :: rest, bs₂)

/-- Reads the lengths of code words, in reverse behind `done`. Three symbols stand for repetitions:
of the last length, or of zero. -/
def readLengths? (code : Huffman) (total : Nat) (done : List Nat) (bs : Bits) :
    (fuel : Nat) → Option (List Nat × Bits)
  | 0 => none
  | fuel + 1 =>
    -- A repetition may not run over the end.
    if total < done.length then none
    else if done.length = total then some (done.reverse, bs)
    else
      match code.read? bs with
      | none => none
      | some (symbol, bs₁) =>
        let again (length least width : Nat) :=
          match bs₁.number? width with
          | none => none
          | some (n, bs₂) =>
            readLengths? code total (List.replicate (least + n) length ++ done) bs₂ fuel
        if symbol < 16 then readLengths? code total (symbol :: done) bs₁ fuel
        else if symbol = 16 then
          match done with
          | [] => none
          | last :: _ => again last 3 2
        else if symbol = 17 then again 0 3 3
        else again 0 11 7

/-- Reads the codes that a block brings with it. -/
def readCodes? (bs : Bits) : Option (Codes × Bits) := do
  let (s, bs₁) ← bs.number? 5
  let (d, bs₂) ← bs₁.number? 5
  let (l, bs₃) ← bs₂.number? 4
  let symbolCount := s + 257
  let distanceCount := d + 1
  if 286 < symbolCount ∨ 30 < distanceCount then none
  let (triples, bs₄) ← readTriples? (l + 4) bs₃
  -- Lengths that are not given are zero.
  let placed := lengthOrder.zip triples
  let code ← Huffman.ofLengths? ((List.range 19).map fun i => (placed.lookup i).getD 0)
  let total := symbolCount + distanceCount
  let (lengths, bs₅) ← readLengths? code total [] bs₄ (total + 1)
  let symbols ← Huffman.ofLengths? (lengths.take symbolCount)
  let distances ← Huffman.ofLengths? (lengths.drop symbolCount)
  return (⟨symbols, distances⟩, bs₅)

/-! ## Blocks -/

/-- Reads a block of bytes as they are; their number is given twice, once complemented. -/
def readStored? (out : Array UInt8) (bs : Bits) : Option (Array UInt8 × Bits) := do
  let (size, bytes) ← readNumber? 2 bs.wholeBytes
  let (complement, bytes') ← readNumber? 2 bytes
  if size + complement ≠ 0xFFFF ∨ bytes'.length < size then none
  return (out ++ bytes'.take size, .ofBytes (bytes'.drop size))

/-- Reads a block of a kind. -/
def readBlock? (kind : Nat) (out : Array UInt8) (bs : Bits) : Option (Array UInt8 × Bits) :=
  match kind with
  | 0 => readStored? out bs
  | 1 => do readSymbols? (← fixedCodes?) out bs (bs.count + 1)
  | 2 => do
    let (codes, bs') ← readCodes? bs
    readSymbols? codes out bs' (bs'.count + 1)
  | _ => none

/-- Reads blocks up to the last one. -/
def readBlocks? (out : Array UInt8) (bs : Bits) : (fuel : Nat) → Option (Array UInt8 × Bits)
  | 0 => none
  | fuel + 1 => do
    let (last, bs₁) ← bs.next?
    let (kind, bs₂) ← bs₁.number? 2
    let (out', bs₃) ← readBlock? kind out bs₂
    if last then return (out', bs₃)
    else readBlocks? out' bs₃ fuel

/-- The bytes that compressed data stands for, and the bytes behind the data. -/
def inflate? (bytes : List UInt8) : Option (List UInt8 × List UInt8) :=
  (readBlocks? #[] (.ofBytes bytes) (8 * bytes.length + 1)).map fun (out, bs) =>
    (out.toList, bs.wholeBytes)

end DocPath.Gzip

import DocPath.Gzip.Bits

/-!
# Huffman codes

A canonical code is given by the length of each symbol's code word: shorter words come first, and
words of one length follow the order of their symbols. No word has more than fifteen bits.
-/

namespace DocPath.Gzip

/-- The symbols of a code by the length of their words, from one bit on. -/
structure Huffman where
  byLength : List (List Nat)

namespace Huffman

def maxLength : Nat := 15

/-- How many sequences of fifteen bits start with a word. -/
def coverage (byLength : List (List Nat)) : Nat :=
  byLength.foldr (fun symbols r => (symbols.length <<< maxLength + r) / 2) 0

/-- The code in which symbol `i` has a word of `lengths[i]` bits, or none for length zero. Every
sequence of bits has to start with a word, unless the code has one word at most. -/
def ofLengths? (lengths : List Nat) : Option Huffman :=
  let byLength := (List.range maxLength).map fun n =>
    (lengths.zipIdx.filter fun e => e.1 == n + 1).map (·.2)
  let size := byLength.flatten.length
  if size ≤ 1 ∨ coverage byLength = 1 <<< maxLength then some ⟨byLength⟩ else none

/-- Reads a symbol. The words that are as long as what has been read start at `first`, and `word`
has been read. -/
def readFrom? (word first : Nat) : List (List Nat) → Bits → Option (Nat × Bits)
  | [], _ => none
  | symbols :: longer, bs =>
    match bs.next? with
    | none => none
    | some (b, bs') =>
      let word' := 2 * word + b.toNat
      let first' := 2 * first
      -- Words of this length are numbered in order, so the symbol is found by counting.
      match symbols[word' - first']? with
      | some symbol => some (symbol, bs')
      | none => readFrom? word' (first' + symbols.length) longer bs'

def read? (code : Huffman) (bs : Bits) : Option (Nat × Bits) := readFrom? 0 0 code.byLength bs

end Huffman

end DocPath.Gzip

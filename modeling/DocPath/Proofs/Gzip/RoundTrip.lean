import DocPath.Bytes
import DocPath.Gzip.Member

/-!
# Compressed files read back

A block of bytes as they are reads back in one step, blocks read back one after the other, and what
follows them is the checksum and the number of the bytes that were read. So such files are a way to
compress. Whatever the way is, no compressed file is a text.
-/

namespace DocPath.Gzip

theorem readNumber?_numberBytes {width n : Nat} (h : n < Nat.pow 256 width) (rest : List UInt8) :
    readNumber? width (numberBytes width n ++ rest) = some (n, rest) := by
  induction width generalizing n with
  | zero =>
      have hn : n < 1 := h
      obtain rfl : n = 0 := by omega
      rfl
  | succ width ih =>
      have hpow : n < Nat.pow 256 width * 256 := h
      have hdiv : n / 256 < Nat.pow 256 width := by omega
      rw [numberBytes, List.cons_append, readNumber?, ih hdiv]
      have hbyte : (UInt8.ofNat n).toNat = n % 256 := UInt8.toNat_ofNat'
      simp only [Option.map_some, hbyte]
      congr 2
      omega

/-! ## Blocks -/

theorem readStored?_ofLengths (out : Array UInt8) (begun : List Bool) {bytes : List UInt8}
    (h : bytes.length ≤ maxStored) (rest : List UInt8) :
    readStored? out ⟨begun, numberBytes 2 bytes.length ++ numberBytes 2 (0xFFFF - bytes.length)
      ++ bytes ++ rest⟩ = some (out ++ bytes, .ofBytes rest) := by
  have hmax : bytes.length ≤ 65535 := h
  have hsize : bytes.length < Nat.pow 256 2 := by
    show bytes.length < 65536
    omega
  have hcomplement : 0xFFFF - bytes.length < Nat.pow 256 2 := by
    show 0xFFFF - bytes.length < 65536
    omega
  have hlengths : ¬(bytes.length + (0xFFFF - bytes.length) ≠ 0xFFFF ∨
      (bytes ++ rest).length < bytes.length) := by
    rw [List.length_append]
    omega
  simp only [readStored?, Bits.wholeBytes, List.append_assoc, readNumber?_numberBytes hsize,
    readNumber?_numberBytes hcomplement, Option.bind_eq_bind, Option.bind_some, if_neg hlengths,
    List.take_left, List.drop_left]
  rfl

/-- A block reads back, and is the last one if it says so. -/
theorem readBlocks?_storedBlock (out : Array UInt8) (last : Bool) {bytes : List UInt8}
    (h : bytes.length ≤ maxStored) (rest : List UInt8) (fuel : Nat) :
    readBlocks? out (.ofBytes (storedBlock last bytes ++ rest)) (fuel + 1) =
      if last then some (out ++ bytes, .ofBytes rest)
      else readBlocks? (out ++ bytes) (.ofBytes rest) fuel := by
  have hbits : (Bits.ofBytes (storedBlock last bytes ++ rest)).next? =
      some (last, ⟨List.replicate 7 false, numberBytes 2 bytes.length
        ++ numberBytes 2 (0xFFFF - bytes.length) ++ bytes ++ rest⟩) := by
    cases last <;> rfl
  have hkind : ∀ tail, Bits.number? ⟨List.replicate 7 false, tail⟩ 2 =
      some (0, ⟨List.replicate 5 false, tail⟩) := fun _ => rfl
  rw [readBlocks?, hbits]
  simp only [Option.bind_eq_bind, Option.bind_some, hkind, readBlock?, readStored?_ofLengths _ _ h]
  rfl

/-- Blocks read back to the last one, each of them adding its bytes. -/
theorem readBlocks?_storedBlocks (out : Array UInt8) (bytes rest : List UInt8) {fuel : Nat}
    (h : bytes.length < fuel) :
    readBlocks? out (.ofBytes (storedBlocks bytes ++ rest)) fuel =
      some (out ++ bytes, .ofBytes rest) := by
  induction fuel generalizing out bytes with
  | zero => omega
  | succ fuel ih =>
      rw [storedBlocks]
      split
      · rename_i hshort
        rw [readBlocks?_storedBlock out true hshort]
        rfl
      · rename_i hlong
        have hmax : maxStored = 65535 := rfl
        have htake : (bytes.take maxStored).length ≤ maxStored := by
          rw [List.length_take]
          omega
        have hdrop : (bytes.drop maxStored).length < fuel := by
          rw [List.length_drop]
          omega
        have hjoin : out ++ bytes.take maxStored ++ bytes.drop maxStored = out ++ bytes := by
          apply Array.toList_inj.1
          simp
        rw [List.append_assoc, readBlocks?_storedBlock out false htake, if_neg (by decide),
          ih _ _ hdrop, hjoin]

theorem length_le_storedBlocks (bytes : List UInt8) :
    bytes.length ≤ (storedBlocks bytes).length := by
  fun_induction storedBlocks bytes with
  | case1 bytes hshort =>
      simp only [storedBlock, List.length_cons, List.length_append]
      omega
  | case2 bytes hlong ih =>
      simp only [storedBlock, List.length_cons, List.length_append, List.length_take,
        List.length_drop] at ih ⊢
      omega

theorem inflate?_storedBlocks (bytes rest : List UInt8) :
    inflate? (storedBlocks bytes ++ rest) = some (bytes, rest) := by
  have hlength := length_le_storedBlocks bytes
  have hfuel : bytes.length < 8 * (storedBlocks bytes ++ rest).length + 1 := by
    rw [List.length_append]
    omega
  rw [inflate?, readBlocks?_storedBlocks #[] bytes rest hfuel]
  simp [Bits.wholeBytes, Bits.ofBytes]

/-! ## Files -/

/-- A plain header is stepped over as a whole. -/
theorem dropHeader?_plain (rest : List UInt8) :
    dropHeader? (magic ++ [8, 0, 0, 0, 0, 0, 0, 255] ++ rest) = some rest := by
  simp [dropHeader?, magic, ifFlag]

theorem decompress?_body_trailer (bytes : List UInt8) :
    decompress? (body bytes ++ trailer bytes) = some bytes := by
  have hsum : (checksum bytes).toNat < Nat.pow 256 4 := (checksum bytes).toNat_lt
  have hsize : bytes.length % UInt32.size < Nat.pow 256 4 := Nat.mod_lt _ (by decide)
  have hsize' := readNumber?_numberBytes hsize []
  rw [List.append_nil] at hsize'
  simp only [decompress?, body, trailer, List.append_assoc]
  rw [← List.append_assoc magic, dropHeader?_plain]
  simp only [Option.bind_eq_bind, Option.bind_some, inflate?_storedBlocks,
    readNumber?_numberBytes hsum, hsize']
  simp

namespace Stored

/-- Bytes are written as they are. -/
scoped instance encoder : Encoder where
  parts bytes := [body bytes, trailer bytes]
  decompress?_parts bytes := by simpa using decompress?_body_trailer bytes

end Stored

/-- Decompression undoes compression. -/
theorem decompress?_compress [Encoder] (bytes : List UInt8) :
    decompress? (compress bytes) = some bytes :=
  Encoder.decompress?_parts bytes

/-- Compressed files start with two bytes of their own. -/
theorem exists_eq_magic_append {bytes content : List UInt8}
    (h : decompress? bytes = some content) : ∃ rest, bytes = magic ++ rest := by
  obtain ⟨data, hdata, -⟩ := Option.bind_eq_some_iff.1 h
  unfold dropHeader? at hdata
  split at hdata
  · rename_i id₁ id₂ method flags _ _ _ _ _ _ rest
    by_cases hmagic : [id₁, id₂] = magic
    · exact ⟨method :: flags :: _, congrArg (· ++ method :: flags :: _) hmagic⟩
    · rw [if_pos (.inl hmagic)] at hdata
      cases hdata
  · cases hdata

/-- No compressed file is a text. -/
theorem text?_compress [Encoder] (bytes : List UInt8) : Bytes.text? (compress bytes) = none := by
  obtain ⟨rest, hrest⟩ := exists_eq_magic_append (decompress?_compress bytes)
  rw [hrest]
  exact Bytes.text?_eq_none (by decide) (by decide) (by decide) rest

end DocPath.Gzip

/-!
# Hexadecimal digits

Reading a fixed number of hexadecimal digits and writing a number with a fixed width.
-/

namespace DocPath

/-- The value of a hexadecimal digit of either case. -/
def hexDigit? (c : Char) : Option Nat :=
  if c.isDigit then some (c.toNat - '0'.toNat)
  else if 'a' ≤ c ∧ c ≤ 'f' then some (c.toNat - 'a'.toNat + 10)
  else if 'A' ≤ c ∧ c ≤ 'F' then some (c.toNat - 'A'.toNat + 10)
  else none

/-- Reads exactly `width` digits; `value` is the value of the digits before them. -/
def readHex (value : Nat) : (width : Nat) → List Char → Option (Nat × List Char)
  | 0, cs => some (value, cs)
  | _ + 1, [] => none
  | width + 1, c :: rest =>
    match hexDigit? c with
    | none => none
    | some d => readHex (value * 16 + d) width rest

theorem length_le_of_readHex {value width : Nat} {cs : List Char} {n : Nat} {rest : List Char}
    (h : readHex value width cs = some (n, rest)) : rest.length ≤ cs.length := by
  fun_induction readHex value width cs with
  | case1 => cases h; exact Nat.le_refl _
  | case2 => contradiction
  | case3 => contradiction
  | case4 _ _ _ _ _ _ ih => exact Nat.le_succ_of_le (ih h)

/-- A number in lower case, filled up with zeros to a width. -/
def hex (width n : Nat) : List Char :=
  let digits := Nat.toDigits 16 n
  List.replicate (width - digits.length) '0' ++ digits

/-- A number in upper case, filled up with zeros to a width. -/
def upperHex (width n : Nat) : List Char := (hex width n).map Char.toUpper

end DocPath

/-!
# Natural numbers in decimal

The digits of a natural number without leading zeros, the number that a run of digits stands for,
and the fact that the second undoes the first. Digits behind others scale what those stand for.
-/

namespace DocPath

/-- The decimal digits of `n`, without leading zeros. -/
def decimal (n : Nat) : String := String.ofList (Nat.toDigits 10 n)

/-- The number that a run of decimal digits stands for, leading zeros allowed. -/
def decimalValue (digits : List Char) : Nat := Nat.ofDigitChars 10 digits 0

theorem decimalValue_toDigits (n : Nat) : decimalValue (Nat.toDigits 10 n) = n :=
  Nat.ofDigitChars_toDigits (by decide) (by decide)

theorem decimalValue_decimal (n : Nat) : decimalValue (decimal n).toList = n := by
  rw [decimal, String.toList_ofList, decimalValue_toDigits]

theorem decimal_inj {m n : Nat} (h : decimal m = decimal n) : m = n := by
  rw [← decimalValue_decimal m, ← decimalValue_decimal n, h]

theorem decimalValue_append (front back : List Char) :
    decimalValue (front ++ back) =
      Nat.pow 10 back.length * decimalValue front + decimalValue back := by
  rw [decimalValue, Nat.ofDigitChars_append, Nat.ofDigitChars_eq_ofDigitChars_zero]
  rfl

/-- More digits never make a number smaller. -/
theorem decimalValue_le_append (front back : List Char) :
    decimalValue front ≤ decimalValue (front ++ back) := by
  have hpos : 0 < Nat.pow 10 back.length := Nat.pow_pos (by decide)
  have hscaled := Nat.le_mul_of_pos_left (decimalValue front) hpos
  rw [decimalValue_append]
  omega

end DocPath

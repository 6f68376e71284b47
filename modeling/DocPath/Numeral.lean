import DocPath.Decimal
import DocPath.Binary64.Basic

/-!
# Decimal numerals

A numeral has digits before the point, after it, and an exponent; each format says which parts may
be missing or empty. Its value is the nearest double.
-/

namespace DocPath

/-- A decimal numeral without its sign. -/
structure Numeral where
  whole : List Char
  fraction : Option (List Char)
  exponent : Option Int
deriving DecidableEq, Repr

namespace Numeral

/-- A nonempty run of digits and nothing else. -/
def isDigits (cs : List Char) : Bool := !cs.isEmpty && cs.all Char.isDigit

/-- The exponent that follows the letter `e`: digits with an optional sign. -/
def readExponent? : List Char → Option Int
  | '-' :: ds => if isDigits ds then some (-(decimalValue ds : Int)) else none
  | '+' :: ds => if isDigits ds then some (decimalValue ds) else none
  | ds => if isDigits ds then some (decimalValue ds) else none

/-- What follows the digits and the fraction: nothing, or the letter `e` and an exponent. -/
def readEnd? (whole : List Char) (fraction : Option (List Char)) : List Char → Option Numeral
  | [] => some ⟨whole, fraction, none⟩
  | c :: rest =>
    if c = 'e' ∨ c = 'E' then (readExponent? rest).map fun e => ⟨whole, fraction, some e⟩
    else none

/-- The numeral that a whole text spells; runs of digits may be empty, except in an exponent. -/
def read? (cs : List Char) : Option Numeral :=
  let whole := cs.takeWhile Char.isDigit
  match cs.dropWhile Char.isDigit with
  | '.' :: rest => readEnd? whole (some (rest.takeWhile Char.isDigit)) (rest.dropWhile Char.isDigit)
  | rest => readEnd? whole none rest

/-- A numeral without a point and an exponent. -/
def isWhole (n : Numeral) : Bool := n.fraction.isNone && n.exponent.isNone

/-- The double nearest to a numeral with a given sign. -/
def toDouble (negative : Bool) (n : Numeral) : Binary64 :=
  let fraction := n.fraction.getD []
  .ofDecimal negative (n.whole ++ fraction) (n.exponent.getD 0 - fraction.length)

end Numeral

end DocPath

import DocPath.Decimal
import DocPath.Binary64.Shortest

/-!
# Layouts of doubles

A layout says how a double is written: which exponents are written positionally, whether a whole
number keeps a point and a zero, how the exponent is marked, and what infinities and NaNs are
called. The digits are always the shortest that read back as the same double.
-/

namespace DocPath

/-- How doubles are written. -/
structure Layout where
  /-- Which of two equally near shortest decimals is written. -/
  tie : Tie
  /-- The exponents that are written without an exponent. -/
  isPositional : Int → Bool
  /-- What follows a whole number that is written positionally. -/
  wholeSuffix : String
  /-- What stands before an exponent that is not negative. -/
  exponentPlus : String
  infinity : String
  negativeInfinity : String
  nan : String

namespace Layout

/-- A decimal written without an exponent. -/
def positional (layout : Layout) (s : Scientific) : String :=
  if s.exponent < 0 then
    "0." ++ String.ofList (List.replicate (-s.exponent - 1).toNat '0' ++ s.digits)
  else
    let whole := s.exponent.toNat + 1
    if s.digits.length ≤ whole then
      String.ofList (s.digits ++ List.replicate (whole - s.digits.length) '0')
        ++ layout.wholeSuffix
    else
      String.ofList (s.digits.take whole) ++ "." ++ String.ofList (s.digits.drop whole)

/-- A decimal written with an exponent. -/
def exponential (layout : Layout) (s : Scientific) : String :=
  let exponent :=
    if s.exponent < 0 then "-" ++ decimal s.exponent.natAbs
    else layout.exponentPlus ++ decimal s.exponent.toNat
  let fraction := s.digits.drop 1
  let point := if fraction.isEmpty then "" else "." ++ String.ofList fraction
  String.ofList (s.digits.take 1) ++ point ++ "e" ++ exponent

/-- The text of a double. -/
def text (layout : Layout) (x : Binary64) : String :=
  if x.isNaN then layout.nan
  else if !x.isFinite then
    if x.isNegative then layout.negativeInfinity else layout.infinity
  else
    let sign := if x.isNegative then "-" else ""
    if x.isZero then sign ++ "0" ++ layout.wholeSuffix
    else
      let s := x.shortest layout.tie
      sign ++ if layout.isPositional s.exponent then layout.positional s else layout.exponential s

end Layout

end DocPath

/-!
# Double precision numbers

A double is its word of 64 bits: a sign, eleven bits of exponent and 52 bits of fraction. A finite
double has the magnitude `significand * 2 ^ exponent`, and `ofRatio` picks the double nearest to a
quotient of natural numbers, with a tie going to the even significand. All of it is exact
arithmetic on natural numbers.
-/

namespace DocPath

/-- A double precision number, as its word of 64 bits. -/
structure Binary64 where
  bits : UInt64
deriving DecidableEq, Repr

namespace Binary64

def signWord : Nat := 0x8000000000000000

def infinityWord : Nat := 0x7FF0000000000000

/-- The bit in front of the fraction of a normal double, which the word leaves out. -/
def hiddenBit : Nat := 0x10000000000000

/-- The word without its sign. -/
def magnitudeWord (x : Binary64) : Nat := x.bits.toNat % signWord

def isNegative (x : Binary64) : Bool := signWord ≤ x.bits.toNat

def isZero (x : Binary64) : Bool := x.magnitudeWord == 0

def isFinite (x : Binary64) : Bool := x.magnitudeWord < infinityWord

def isNaN (x : Binary64) : Bool := infinityWord < x.magnitudeWord

/-- The double with a given sign and word without sign. -/
def ofMagnitudeWord (negative : Bool) (word : Nat) : Binary64 :=
  ⟨UInt64.ofNat (if negative then signWord + word else word)⟩

def zero (negative : Bool) : Binary64 := ofMagnitudeWord negative 0

def infinity (negative : Bool) : Binary64 := ofMagnitudeWord negative infinityWord

def nan : Binary64 := ofMagnitudeWord false (infinityWord + hiddenBit / 2)

/-- The whole number that the magnitude of a finite double is a power of two times of. -/
def significand (x : Binary64) : Nat :=
  if x.magnitudeWord < hiddenBit then x.magnitudeWord
  else hiddenBit + x.magnitudeWord % hiddenBit

/-- The power of two that belongs to `significand`. -/
def exponent (x : Binary64) : Int :=
  if x.magnitudeWord < hiddenBit then -1074 else (x.magnitudeWord / hiddenBit : Nat) - 1075

/-- Doubles compare as numbers: the zeros are equal, and nothing equals a NaN. -/
def same (x y : Binary64) : Bool :=
  !x.isNaN && !y.isNaN && (x.bits == y.bits || x.isZero && y.isZero)

/-- `num / den` to the nearest whole number, a tie going to the even one. -/
def roundQuotient (num den : Nat) : Nat :=
  let q := num / den
  let twice := 2 * (num % den)
  if den < twice || den == twice && q % 2 == 1 then q + 1 else q

/-- The exponent `e` with `2 ^ e ≤ num / den < 2 ^ (e + 1)`. -/
def binade (num den : Nat) : Int :=
  let e : Int := (num.log2 : Int) - den.log2
  let reached := if 0 ≤ e then den <<< e.toNat ≤ num else den ≤ num <<< (-e).toNat
  if reached then e else e - 1

/-- The double nearest to `num / den`; what lies beyond the largest one becomes an infinity. -/
def ofRatio (negative : Bool) (num den : Nat) : Binary64 :=
  if num = 0 then zero negative
  else
    -- Below the smallest normal double the significand loses bits instead of the exponent.
    let unit := max (binade num den - 52) (-1074)
    let m :=
      if 0 ≤ unit then roundQuotient num (den <<< unit.toNat)
      else roundQuotient (num <<< (-unit).toNat) den
    -- A significand that was rounded up to the next power of two carries into the exponent.
    ofMagnitudeWord negative (min ((unit + 1074).toNat * hiddenBit + m) infinityWord)

/-- The double nearest to `digits * 10 ^ exponent`, where `digits` has `length` digits. -/
def ofDecimal (negative : Bool) (digits : List Char) (exponent : Int) : Binary64 :=
  let significant := digits.dropWhile (· == '0')
  let top : Int := significant.length + exponent
  let n := Nat.ofDigitChars 10 significant 0
  -- Far outside the range of doubles no power has to be formed.
  if n = 0 || top < -330 then zero negative
  else if 310 < top then infinity negative
  else if 0 ≤ exponent then ofRatio negative (n * Nat.pow 10 exponent.toNat) 1
  else ofRatio negative n (Nat.pow 10 (-exponent).toNat)

/-- The double nearest to a whole number. -/
def ofInt (n : Int) : Binary64 := ofRatio (n < 0) n.natAbs 1

end Binary64

end DocPath

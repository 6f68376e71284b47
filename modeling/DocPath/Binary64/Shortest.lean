import DocPath.Binary64.Basic

/-!
# Shortest decimals

Among the decimals that are nearer to a double than to any other, the shortest are those with the
fewest digits. For one digit, two digits and so on up to seventeen, the grid of decimals with that
many digits has two points around the double; the first grid of which a point lies in the
interval of the double gives the digits, and of two such points the nearer one does.
-/

namespace DocPath

/-- Which of two equally near decimals is taken. -/
inductive Tie where
  | toEven
  | up
deriving DecidableEq, Repr

/-- A positive decimal in scientific form: the first digit of `digits` stands before the point,
the others behind it, and `exponent` is the power of ten. -/
structure Scientific where
  digits : List Char
  exponent : Int
deriving DecidableEq, Repr

namespace Binary64

/-- A quotient of natural numbers. -/
structure Ratio where
  num : Nat
  den : Nat

/-- `n * 2 ^ e` as a quotient. -/
def Ratio.ofScaled (n : Nat) (e : Int) : Ratio := ⟨n <<< e.toNat, 1 <<< (-e).toNat⟩

/-- The end of a double's interval on the side of zero. -/
def lowerEnd (x : Binary64) : Ratio :=
  let m := x.significand
  -- Below a power of two the doubles lie twice as close.
  if m = hiddenBit ∧ -1074 < x.exponent then
    .ofScaled (4 * m - 1) (x.exponent - 2)
  else
    .ofScaled (2 * m - 1) (x.exponent - 1)

/-- The end of a double's interval on the far side from zero. -/
def upperEnd (x : Binary64) : Ratio := .ofScaled (2 * x.significand + 1) (x.exponent - 1)

/-- A point `d * 10 ^ s` lies in the interval of a double. The ends count when the significand is
even, since ties go to it. -/
def covers (x : Binary64) (d : Nat) (s : Int) : Bool :=
  let num := d * Nat.pow 10 s.toNat
  let den := Nat.pow 10 (-s).toNat
  let lo := x.lowerEnd
  let hi := x.upperEnd
  if x.significand % 2 = 0 then
    lo.num * den ≤ num * lo.den && num * hi.den ≤ hi.num * den
  else
    lo.num * den < num * lo.den && num * hi.den < hi.num * den

/-- The exponent `k` with `10 ^ k ≤ r < 10 ^ (k + 1)`, found from an estimate that is off by at
most `tries`. -/
def Ratio.decadeFrom (r : Ratio) (k : Int) : Nat → Int
  | 0 => k
  | tries + 1 =>
    if r.num * Nat.pow 10 (-k).toNat < r.den * Nat.pow 10 k.toNat then r.decadeFrom (k - 1) tries
    else if r.den * Nat.pow 10 (k + 1).toNat ≤ r.num * Nat.pow 10 (-(k + 1)).toNat then
      r.decadeFrom (k + 1) tries
    else k

/-- The power of ten of the first digit of a positive quotient. -/
def Ratio.decade (r : Ratio) : Int :=
  r.decadeFrom (((r.num.log2 : Int) - r.den.log2) * 30103 / 100000) 4

/-- The nearest point with `s` as its power of ten that lies in the interval of `x`. -/
def pointAt? (tie : Tie) (x : Binary64) (s : Int) : Option Nat :=
  let r := Ratio.ofScaled x.significand x.exponent
  let num := r.num * Nat.pow 10 (-s).toNat
  let den := r.den * Nat.pow 10 s.toNat
  let d := num / den
  let twice := 2 * (num % den)
  match x.covers d s, x.covers (d + 1) s with
  | false, false => none
  | true, false => some d
  | false, true => some (d + 1)
  | true, true =>
    if twice < den then some d
    else if den < twice then some (d + 1)
    else
      match tie with
      | .toEven => some (if d % 2 = 0 then d else d + 1)
      | .up => some (d + 1)

/-- The digits of a decimal without the zeros at its end. -/
def Scientific.ofPoint (d : Nat) (s : Int) : Scientific :=
  let digits := Nat.toDigits 10 d
  let kept := (digits.reverse.dropWhile (· == '0')).reverse
  ⟨kept, s + digits.length - 1⟩

/-- The first grid with a point in the interval, from `count` digits on. -/
def shortestFrom (tie : Tie) (x : Binary64) (decade : Int) (count : Nat) : Nat → Scientific
  | 0 => Scientific.ofPoint 0 0
  | more + 1 =>
    match x.pointAt? tie (decade - count + 1) with
    | some d => Scientific.ofPoint d (decade - count + 1)
    | none => shortestFrom tie x decade (count + 1) more

/-- The shortest decimal of a finite double other than zero, without its sign. -/
def shortest (tie : Tie) (x : Binary64) : Scientific :=
  shortestFrom tie x (Ratio.ofScaled x.significand x.exponent).decade 1 17

end Binary64

end DocPath

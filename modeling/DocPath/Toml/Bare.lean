import DocPath.Hex
import DocPath.Numeral
import DocPath.Toml.Node

/-!
# Bare values of TOML

Booleans, whole numbers of 64 bits, floats, dates and times are written without quotes. Digits may
be grouped by single underscores.
-/

namespace DocPath.Toml

/-- The digits of groups that are separated by single underscores. -/
def readGroups? (isDigit : Char → Bool) (cs : List Char) : Option (List Char) :=
  let digits := cs.filter (· != '_')
  let rec separated : (afterDigit : Bool) → List Char → Bool
    | afterDigit, [] => afterDigit
    | afterDigit, c :: rest => if c == '_' then afterDigit && separated false rest
      else separated true rest
  if digits.all isDigit && separated false cs then some digits else none

/-- A text without a sign in front of it, and whether the sign is a minus. -/
def splitSign : List Char → Bool × List Char
  | '+' :: rest => (false, rest)
  | '-' :: rest => (true, rest)
  | cs => (false, cs)

/-- The digits of a decimal number without a needless zero in front. -/
def readWhole? (cs : List Char) : Option (List Char) :=
  match cs with
  | ['0'] => some ['0']
  | '0' :: _ => none
  | _ => readGroups? Char.isDigit cs

/-- The number that digits in a base spell. -/
def baseValue (base : Nat) (digits : List Char) : Nat :=
  digits.foldl (fun n c => n * base + (hexDigit? c).getD 0) 0

/-- The number that groups of digits in a base spell. -/
def readInBase? (base : Nat) (cs : List Char) : Option Int :=
  (readGroups? (fun c => (hexDigit? c).any (· < base)) cs).map fun ds => (baseValue base ds : Int)

def readInteger? (cs : List Char) : Option Int :=
  match cs with
  | '0' :: 'x' :: rest => readInBase? 16 rest
  | '0' :: 'o' :: rest => readInBase? 8 rest
  | '0' :: 'b' :: rest => readInBase? 2 rest
  | _ =>
    let (negative, digits) := splitSign cs
    (readWhole? digits).map fun ds =>
      if negative then -(decimalValue ds : Int) else (decimalValue ds : Int)

/-- A whole number that fits 64 bits. -/
def fits (i : Int) : Bool := -0x8000000000000000 ≤ i && i < 0x8000000000000000

/-! ## Floats -/

/-- The numeral of a float: its whole part may not have a needless zero in front, and it has a
fraction or an exponent. -/
def readNumeral? (cs : List Char) : Option Numeral := do
  let isExponentMark (c : Char) : Bool := c == 'e' || c == 'E'
  let mantissa := cs.takeWhile (!isExponentMark ·)
  let exponent ← match cs.dropWhile (!isExponentMark ·) with
    | [] => some none
    | _ :: rest =>
      let (negative, ds) := splitSign rest
      (readGroups? Char.isDigit ds).map fun ds =>
        some (if negative then -(decimalValue ds : Int) else decimalValue ds)
  let whole ← readWhole? (mantissa.takeWhile (· != '.'))
  let fraction ← match mantissa.dropWhile (· != '.') with
    | [] => some none
    | _ :: rest => (readGroups? Char.isDigit rest).map some
  let n : Numeral := ⟨whole, fraction, exponent⟩
  if n.isWhole then none else return n

/-- A float. One that is too large is refused, unless it is negative. -/
def isFloat (cs : List Char) : Bool :=
  let (negative, unsigned) := splitSign cs
  unsigned == "inf".toList || unsigned == "nan".toList
    || (readNumeral? unsigned).any fun n => negative || (n.toDouble false).isFinite

/-! ## Dates and times -/

/-- The number that two digits spell. -/
def twoDigits? : List Char → Option Nat
  | [a, b] => if a.isDigit && b.isDigit then some (decimalValue [a, b]) else none
  | _ => none

def isLeapYear (y : Nat) : Bool := (y % 4 == 0 && y % 100 != 0) || y % 400 == 0

def daysInMonth (year month : Nat) : Nat :=
  if month == 2 then if isLeapYear year then 29 else 28
  else if month == 4 || month == 6 || month == 9 || month == 11 then 30
  else 31

/-- A year, a month and a day. -/
def isDay : List Char → Bool
  | [y₁, y₂, y₃, y₄, '-', m₁, m₂, '-', d₁, d₂] =>
    match twoDigits? [y₁, y₂], twoDigits? [y₃, y₄], twoDigits? [m₁, m₂], twoDigits? [d₁, d₂] with
    | some century, some year, some month, some day =>
      1 ≤ month && month ≤ 12 && 1 ≤ day && day ≤ daysInMonth (century * 100 + year) month
    | _, _, _, _ => false
  | _ => false

/-- An hour and a minute. -/
def isHourMinute : List Char → Bool
  | [h₁, h₂, ':', m₁, m₂] =>
    match twoDigits? [h₁, h₂], twoDigits? [m₁, m₂] with
    | some hour, some minute => hour < 24 && minute < 60
    | _, _ => false
  | _ => false

/-- A time of day. Seconds may have a fraction, and there may be a leap second. -/
def isTime (cs : List Char) : Bool :=
  isHourMinute (cs.take 5)
    && match cs.drop 5 with
      | ':' :: s₁ :: s₂ :: rest =>
        (twoDigits? [s₁, s₂]).any (· ≤ 60)
          && match rest with
            | [] => true
            | '.' :: ds => Numeral.isDigits ds
            | _ => false
      | _ => false

/-- The characters that an offset from universal time starts with. -/
def startsOffset (c : Char) : Bool := c == 'Z' || c == 'z' || c == '+' || c == '-'

/-- An offset from universal time, or nothing. -/
def isOffset : List Char → Bool
  | [] => true
  | ['Z'] => true
  | ['z'] => true
  | sign :: rest => (sign == '+' || sign == '-') && isHourMinute rest

/-- A date, a time or both. An offset follows only where there are both. -/
def isDate (cs : List Char) : Bool :=
  isTime cs
    || (isDay (cs.take 10)
      && match cs.drop 10 with
        | [] => true
        | c :: rest =>
          (c == 'T' || c == 't' || c == ' ')
            && isTime (rest.takeWhile (!startsOffset ·))
            && isOffset (rest.dropWhile (!startsOffset ·)))

/-! ## Bare values -/

/-- The value that a bare word stands for. -/
def ofWord? (cs : List Char) : Option Scalar :=
  if cs == "true".toList then some (.boolean true)
  else if cs == "false".toList then some (.boolean false)
  else
    match readInteger? cs with
    | some i => if fits i then some (.integer i) else none
    | none => if isDate cs then some .date else if isFloat cs then some .float else none

/-- A character of a bare value. -/
def isWordChar (c : Char) : Bool := c.isAlphanum || c == '_' || c == '+' || c == '-' || c == '.'
  || c == ':'

/-- Reads a bare value. A date and a time may be separated by a space. -/
def readBare? (cs : List Char) : Option (Scalar × List Char) :=
  let word := cs.takeWhile isWordChar
  let rest := cs.dropWhile isWordChar
  -- A space only joins a date to what looks like a time; a comment may follow one as well.
  let continued := isDay word && match rest with
    | ' ' :: h₁ :: h₂ :: ':' :: _ => h₁.isDigit && h₂.isDigit
    | _ => false
  if continued then
    let time := (rest.drop 1).takeWhile isWordChar
    (ofWord? (word ++ ' ' :: time)).map fun v => (v, (rest.drop 1).dropWhile isWordChar)
  else (ofWord? word).map fun v => (v, rest)

end DocPath.Toml

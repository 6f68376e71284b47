import DocPath.Decimal

/-!
# Why a path text is refused

An error says what is wrong and where. The place is a parameter: the reader names it by the text
that is still to be read, its callers by an offset in bytes.
-/

namespace DocPath

/-- What a path text should have held at the place of an error. -/
inductive Expectation where
  | separator
  | boundary
  | identifier
  | openBracket
  | closeBracket
  | bracketContent
  | openQuote
  | closeQuote
  | escaped
deriving DecidableEq, Repr

def Expectation.text : Expectation → String
  | separator => "'.' or '['"
  | boundary => "'.', '[' or end of path"
  | identifier => "identifier"
  | openBracket => "'['"
  | closeBracket => "']'"
  | bracketContent => "index or quoted key"
  | openQuote => "'\"'"
  | closeQuote => "closing quote '\"'"
  | escaped => "escaped character"

/-- Why a path text is refused. -/
inductive PathError (Place : Type) where
  | unexpectedChar (place : Place) (found : Char) (expected : Expectation)
  | unexpectedEnd (expected : Expectation)
  | leadingDot
  | unmatchedBracket (place : Place)
  | invalidEscape (place : Place) (found : Char)
  | indexOutOfRange (place : Place) (digits : String)
deriving DecidableEq, Repr

namespace PathError

variable {Place Place' : Type}

/-- The same error with its place named in another way. -/
def map (f : Place → Place') : PathError Place → PathError Place'
  | unexpectedChar place found expected => unexpectedChar (f place) found expected
  | unexpectedEnd expected => unexpectedEnd expected
  | leadingDot => leadingDot
  | unmatchedBracket place => unmatchedBracket (f place)
  | invalidEscape place found => invalidEscape (f place) found
  | indexOutOfRange place digits => indexOutOfRange (f place) digits

/-- The offset of an error in bytes; a text that ends too early has none. -/
def position : PathError Nat → Option Nat
  | unexpectedChar place _ _ => some place
  | unexpectedEnd _ => none
  | leadingDot => some 0
  | unmatchedBracket place => some place
  | invalidEscape place _ => some place
  | indexOutOfRange place _ => some place

/-- What the text should have held where the error is, if the error says so. -/
def expectation? : PathError Place → Option Expectation
  | unexpectedChar _ _ expected => some expected
  | unexpectedEnd expected => some expected
  | _ => none

@[simp] theorem expectation?_map (f : Place → Place') (e : PathError Place) :
    (e.map f).expectation? = e.expectation? := by
  cases e <;> rfl

def message : PathError Nat → String
  | unexpectedChar place found expected =>
    "Expected " ++ expected.text ++ " at position " ++ decimal place ++ ", found '"
      ++ found.toString ++ "'"
  | unexpectedEnd expected => "Expected " ++ expected.text ++ ", found end of path"
  | leadingDot => "Path cannot start with '.'"
  | unmatchedBracket place => "Unmatched ']' at position " ++ decimal place
  | invalidEscape place found =>
    "Invalid escape '\\" ++ found.toString ++ "' at position " ++ decimal place
      ++ ", only \\\" and \\\\ are allowed"
  | indexOutOfRange place digits =>
    "Index " ++ digits ++ " at position " ++ decimal place ++ " is too large"

end PathError

end DocPath

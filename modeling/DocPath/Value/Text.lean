import DocPath.Json.Writer

/-!
# The plain text of a value

Scalars are written as they are: texts without quotes and doubles without an exponent. Containers
are written as compact JSON.
-/

namespace DocPath

/-- Doubles are written positionally, whole ones without a point. -/
def plainLayout : Layout where
  tie := .up
  isPositional _ := true
  wholeSuffix := ""
  exponentPlus := ""
  infinity := "inf"
  negativeInfinity := "-inf"
  nan := "NaN"

namespace Value

/-- The plain text of a value. -/
def text : Value → String
  | null => "null"
  | bool true => "true"
  | bool false => "false"
  | number (.double x) => plainLayout.text x
  | number n => Json.numberText n
  | string s => s
  | container => Json.compact container

end Value

end DocPath

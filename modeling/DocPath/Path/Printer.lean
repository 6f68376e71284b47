import DocPath.Path.Basic

/-!
# The canonical text of a path

Indices stand in brackets, keys stand bare where they can and quoted in brackets elsewhere. A dot
precedes each bare key but a leading one.
-/

namespace DocPath.Path

/-- The characters of a quoted key, with a backslash before each quote and backslash. -/
def escape : List Char → List Char
  | [] => []
  | c :: rest => if c = '"' ∨ c = '\\' then '\\' :: c :: escape rest else c :: escape rest

/-- The text of one segment; `first` tells whether it leads the path. -/
def segmentChars (first : Bool) : Segment → List Char
  | .index i => '[' :: (Nat.toDigits 10 i.toNat ++ [']'])
  | .key name =>
    if isBareKey name.toList then
      if first then name.toList else '.' :: name.toList
    else
      '[' :: '"' :: (escape name.toList ++ ['"', ']'])

def chars (first : Bool) : Path → List Char
  | [] => []
  | s :: rest => segmentChars first s ++ chars false rest

/-- The canonical text of a path. -/
def text (p : Path) : String := String.ofList (chars true p)

end DocPath.Path

import DocPath.Yaml.Scalar.Gap

/-!
# Plain scalars

A plain scalar runs on until a comment, a colon before a gap, a document mark, a line that is not
indented enough, or, inside a flow collection, one of its marks.
-/

namespace DocPath.Yaml.Plain

/-- The characters of a word, and what follows them. Inside a flow collection a colon before a
mark is refused. -/
def readWord (inFlow : Bool) : List Char → Option (List Char × List Char)
  | [] => some ([], [])
  | c :: rest =>
    if isGap c then some ([], c :: rest)
    else if c == ':' && inFlow && (rest.head?.any fun d => isFlowMark d || d == '?') then none
    else if c == ':' && startsWithGap rest then some ([], c :: rest)
    else if inFlow && isFlowMark c then some ([], c :: rest)
    else (readWord inFlow rest).map fun (word, rest') => (c :: word, rest')

/-- What has been read of a plain scalar. -/
structure Result where
  text : List Char
  cursor : Cursor
  /-- The scalar was followed by a line end. -/
  broken : Bool

/-- Reads words and gaps; `out` is the text so far in reverse, and `gap` stands before the next
word, if there is one. -/
def readWords (inFlow : Bool) (indent : Int) (out : List Char) (gap : Gap) (k : Cursor) :
    (fuel : Nat) → Option Result
  | 0 => none
  | fuel + 1 =>
    if k.atDocumentMark || k.next (· == '#') then some ⟨out.reverse, k, gap.broken⟩
    else
      match readWord inFlow k.rest with
      | none => none
      | some ([], _) => some ⟨out.reverse, k, gap.broken⟩
      | some (word, _) =>
        let k' := k.advance word.length
        let out' := word.reverse ++ (gap.text.reverse ++ out)
        if k'.next isGap then
          match Gap.empty.read indent k' k'.fuel with
          | none => none
          | some (gap', k'') =>
            -- The line that follows belongs to a collection further out.
            if !inFlow && k''.column < indent then some ⟨out'.reverse, k'', gap'.broken⟩
            else readWords inFlow indent out' gap' k'' fuel
        else some ⟨out'.reverse, k', false⟩

/-- Reads a plain scalar whose further lines are indented to column `indent` at least. -/
def read (inFlow : Bool) (indent : Int) (k : Cursor) : Option Result :=
  readWords inFlow indent [] Gap.empty k k.fuel

end DocPath.Yaml.Plain

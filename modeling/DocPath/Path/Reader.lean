import DocPath.Path.Basic
import DocPath.Path.Error

/-!
# Reading path texts

A path text is a sequence of atoms. An atom is a bare key, a run of characters other than `.`, `[`
and `]`, or a bracket with an index or a quoted key in it. A bare key after the first atom is
introduced by one dot; brackets attach directly.

Each reader answers with what it read and the text behind it, or with an error placed at the text
where it stopped. Readers of atoms use up at least one character, so the loop over atoms ends.
-/

namespace DocPath

/-- An error placed at the text that was still to be read. -/
abbrev ReadError := PathError (List Char)

namespace Path

/-- The text at hand does not start with what is expected. -/
def unexpected (expected : Expectation) : List Char → ReadError
  | [] => .unexpectedEnd expected
  | c :: rest => .unexpectedChar (c :: rest) c expected

/-- Steps over one character. -/
def expect (c : Char) (expected : Expectation) (cs : List Char) : Except ReadError (List Char) :=
  match cs with
  | [] => .error (unexpected expected [])
  | d :: rest => if d = c then .ok rest else .error (unexpected expected (d :: rest))

/-- Reads a bare key, as long as possible. -/
def readIdentifier (cs : List Char) : Except ReadError (String × List Char) :=
  match cs.takeWhile (!isDelimiter ·) with
  | [] => .error (unexpected .identifier cs)
  | c :: run => .ok (String.ofList (c :: run), cs.dropWhile (!isDelimiter ·))

/-- Reads the characters of a quoted key and its closing quote. -/
def readQuoted : List Char → Except ReadError (List Char × List Char)
  | [] => .error (.unexpectedEnd .closeQuote)
  | ['\\'] => .error (.unexpectedEnd .escaped)
  | '\\' :: c :: rest =>
    if c = '"' ∨ c = '\\' then
      (readQuoted rest).map fun (key, rest') => (c :: key, rest')
    else
      .error (.invalidEscape ('\\' :: c :: rest) c)
  | c :: rest =>
    if c = '"' then
      .ok ([], rest)
    else
      (readQuoted rest).map fun (key, rest') => (c :: key, rest')

/-- Reads a run of digits, which has to name an index of 64 bits. -/
def readIndex (cs : List Char) : Except ReadError (UInt64 × List Char) :=
  let digits := cs.takeWhile Char.isDigit
  if decimalValue digits < UInt64.size then
    .ok (UInt64.ofNat (decimalValue digits), cs.dropWhile Char.isDigit)
  else
    .error (.indexOutOfRange cs (String.ofList digits))

/-- Reads what stands in a bracket. -/
def readContent (cs : List Char) : Except ReadError (Segment × List Char) :=
  match cs with
  | [] => .error (unexpected .bracketContent [])
  | c :: rest =>
    if c = '"' then do
      let inner ← expect '"' .openQuote (c :: rest)
      let (key, rest') ← readQuoted inner
      return (.key (String.ofList key), rest')
    else if c.isDigit then do
      let (i, rest') ← readIndex (c :: rest)
      return (.index i, rest')
    else
      .error (unexpected .bracketContent (c :: rest))

/-- Reads a bracket. -/
def readBracket (cs : List Char) : Except ReadError (Segment × List Char) := do
  let inner ← expect '[' .openBracket cs
  let (segment, rest) ← readContent inner
  let rest' ← expect ']' .closeBracket rest
  return (segment, rest')

/-- The texts that may follow a bracket. -/
def atBoundary : List Char → Bool
  | [] => true
  | c :: _ => c == '.' || c == '['

theorem length_dropWhile_le {α : Type} (p : α → Bool) (l : List α) :
    (l.dropWhile p).length ≤ l.length :=
  (List.dropWhile_sublist p).length_le

theorem length_lt_of_expect {c : Char} {e : Expectation} {cs rest : List Char}
    (h : expect c e cs = .ok rest) : rest.length < cs.length := by
  unfold expect at h
  split at h
  · contradiction
  · split at h
    · cases h; simp
    · contradiction

theorem length_lt_of_readIdentifier {cs rest : List Char} {name : String}
    (h : readIdentifier cs = .ok (name, rest)) : rest.length < cs.length := by
  unfold readIdentifier at h
  split at h
  · contradiction
  · rename_i c run hrun
    cases h
    have happend := congrArg List.length
      (List.takeWhile_append_dropWhile (p := fun c => !isDelimiter c) (l := cs))
    rw [hrun] at happend
    simp at happend
    omega

theorem length_lt_of_readQuoted {cs key rest : List Char}
    (h : readQuoted cs = .ok (key, rest)) : rest.length < cs.length := by
  fun_induction readQuoted cs generalizing key with
  | case1 => contradiction
  | case2 => contradiction
  | case3 c tail hc ih =>
    cases hq : readQuoted tail with
    | error e => rw [hq] at h; contradiction
    | ok p =>
      obtain ⟨key', rest'⟩ := p
      rw [hq] at h
      cases h
      have := ih hq
      simp
      omega
  | case4 => contradiction
  | case5 =>
    cases h
    simp
  | case6 c tail _ _ hc ih =>
    cases hq : readQuoted tail with
    | error e => rw [hq] at h; contradiction
    | ok p =>
      obtain ⟨key', rest'⟩ := p
      rw [hq] at h
      cases h
      have := ih hq
      simp
      omega

theorem length_le_of_readContent {cs rest : List Char} {segment : Segment}
    (h : readContent cs = .ok (segment, rest)) : rest.length ≤ cs.length := by
  unfold readContent at h
  split at h
  · contradiction
  · rename_i c tail
    split at h
    · rename_i hc
      simp only [expect, hc, if_true, bind, Except.bind] at h
      split at h
      · contradiction
      · rename_i p hq
        cases h
        have := length_lt_of_readQuoted hq
        simp
        omega
    · split at h
      · simp only [readIndex, bind, Except.bind] at h
        split at h
        · contradiction
        · rename_i p hi
          split at hi
          · cases hi
            cases h
            exact length_dropWhile_le _ _
          · contradiction
      · contradiction

theorem length_lt_of_readBracket {cs rest : List Char} {segment : Segment}
    (h : readBracket cs = .ok (segment, rest)) : rest.length < cs.length := by
  simp only [readBracket, bind, Except.bind] at h
  split at h
  · contradiction
  · rename_i inner hinner
    split at h
    · contradiction
    · rename_i p hp
      split at h
      · contradiction
      · rename_i rest' hrest'
        cases h
        have h₁ := length_lt_of_expect hinner
        have h₂ := length_le_of_readContent hp
        have h₃ := length_lt_of_expect hrest'
        omega

/-- Reads atoms to the end of the text; `first` tells whether none was read yet. -/
def readSegments (first : Bool) (cs : List Char) : Except ReadError Path :=
  match cs with
  | [] => .ok []
  | c :: tail =>
    if c = '[' then
      match _h : readBracket (c :: tail) with
      | .error e => .error e
      | .ok (segment, rest) =>
        -- A bare key may not touch the bracket before it.
        if atBoundary rest then
          (readSegments false rest).map (segment :: ·)
        else
          .error (unexpected .boundary rest)
    else if c = '.' then
      if first then
        .error .leadingDot
      else
        match _h : readIdentifier tail with
        | .error e => .error e
        | .ok (name, rest) => (readSegments false rest).map (.key name :: ·)
    else if c = ']' then
      .error (.unmatchedBracket (c :: tail))
    else if first then
      match _h : readIdentifier (c :: tail) with
      | .error e => .error e
      | .ok (name, rest) => (readSegments false rest).map (.key name :: ·)
    else
      .error (unexpected .separator (c :: tail))
termination_by cs.length
decreasing_by
  · exact length_lt_of_readBracket _h
  · exact Nat.lt_succ_of_lt (length_lt_of_readIdentifier _h)
  · exact length_lt_of_readIdentifier _h

/-- The size of a text in bytes. -/
def byteSize : List Char → Nat
  | [] => 0
  | c :: rest => c.utf8Size + byteSize rest

/-- The path that a text spells, or an error placed by its offset in bytes. -/
def parse (text : String) : Except (PathError Nat) Path :=
  (readSegments true text.toList).mapError
    (PathError.map fun rest => byteSize text.toList - byteSize rest)

/-- The path that a text spells, if it spells one. -/
def parse? (text : String) : Option Path := (parse text).toOption

end Path

end DocPath

import DocPath.Hex
import DocPath.Numeral
import DocPath.Value.Basic

/-!
# Tokens of JSON texts

A token is a punctuation mark, a text in quotes or another scalar. Each reader gets the text behind
the first character and answers with the text behind the token.

Readers differ in the doubles that they make of decimal numerals, as the nearest double takes long
to find. The reading of tokens and of all that is made of them is generic in this.
-/

namespace DocPath.Json

/-- The way in which a reader makes doubles of numerals with a given sign. -/
class DoubleReader where
  toDouble (negative : Bool) (n : Numeral) : Binary64

namespace Nearest

/-- Every numeral is read as the double nearest to it. -/
scoped instance doubleReader : DoubleReader := ⟨Numeral.toDouble⟩

end Nearest

/-- A token of a JSON text. -/
inductive Token where
  | mark (c : Char)
  | text (s : String)
  | scalar (v : Value)

/-- The characters that may stand between tokens. -/
def isSpace (c : Char) : Bool := c == ' ' || c == '\n' || c == '\t' || c == '\r'

/-- The marks of containers, fields and items. -/
def isMark (c : Char) : Bool :=
  c == '{' || c == '}' || c == '[' || c == ']' || c == ',' || c == ':'

/-- The characters that numbers are made of. -/
def isNumberChar (c : Char) : Bool :=
  c.isDigit || c == '-' || c == '+' || c == '.' || c == 'e' || c == 'E'

/-- Digits without needless zeros in front. -/
def isWholePart (cs : List Char) : Bool :=
  !cs.isEmpty && (cs == ['0'] || cs.head? != some '0')

section

variable [DoubleReader]

/-- The double of a numeral; what overflows a double is no number. -/
def doubleOf? (negative : Bool) (n : Numeral) : Option Number :=
  let x := DoubleReader.toDouble negative n
  if x.isFinite then some (.double x) else none

/-- The number of a numeral with a given sign. Whole numbers beyond 64 bits become doubles, and so
does minus zero. -/
def numberOf? (negative : Bool) (n : Numeral) : Option Number :=
  if n.isWhole then
    let i : Int := decimalValue n.whole
    if negative && i == 0 then some (.double (.zero true))
    else (Number.ofInt? (if negative then -i else i)).or (doubleOf? negative n)
  else doubleOf? negative n

/-- The number that a whole text spells. -/
def readNumber? (cs : List Char) : Option Number :=
  let negative := cs.head? == some '-'
  match Numeral.read? (if negative then cs.drop 1 else cs) with
  | none => none
  | some n =>
    if isWholePart n.whole && n.fraction != some [] then numberOf? negative n else none

end

/-- A character outside the first 65536, from the two halves it is escaped with. -/
def joinHalves (high low : Nat) : Char :=
  Char.ofNat (0x10000 + (high - 0xD800) * 0x400 + (low - 0xDC00))

/-- The character that four digits name, with a second escape when they are the first half of one.
Half of a character alone is refused. -/
def readUnicode (cs : List Char) : Option (Char × List Char) :=
  match readHex 0 4 cs with
  | none => none
  | some (high, rest) =>
    if high < 0xD800 ∨ 0xDFFF < high then some (Char.ofNat high, rest)
    -- A second half cannot come first.
    else if 0xDBFF < high then none
    else
      match rest with
      | '\\' :: 'u' :: rest' =>
        match readHex 0 4 rest' with
        | none => none
        | some (low, rest'') =>
          if 0xDC00 ≤ low ∧ low ≤ 0xDFFF then some (joinHalves high low, rest'') else none
      | _ => none

/-- The character that a letter behind a backslash stands for. -/
def letterEscape? : Char → Option Char
  | '"' => some '"'
  | '\\' => some '\\'
  | '/' => some '/'
  | 'b' => some '\x08'
  | 'f' => some '\x0c'
  | 'n' => some '\n'
  | 'r' => some '\r'
  | 't' => some '\t'
  | _ => none

/-- The character that is escaped by a backslash and what follows it. -/
def readEscape : List Char → Option (Char × List Char)
  | [] => none
  | c :: rest =>
    match letterEscape? c with
    | some d => some (d, rest)
    | none => if c = 'u' then readUnicode rest else none

theorem length_le_of_readUnicode {cs rest : List Char} {c : Char}
    (h : readUnicode cs = some (c, rest)) : rest.length ≤ cs.length := by
  unfold readUnicode at h
  split at h
  · contradiction
  · rename_i high tail hhigh
    have h₁ := length_le_of_readHex hhigh
    split at h
    · cases h; exact h₁
    · split at h
      · contradiction
      · split at h
        · split at h
          · contradiction
          · rename_i hlow
            have h₂ := length_le_of_readHex hlow
            split at h
            · simp only [Option.some.injEq, Prod.mk.injEq] at h
              obtain ⟨_, rfl⟩ := h
              simp only [List.length_cons] at h₁
              omega
            · contradiction
        · contradiction

theorem length_le_of_readEscape {cs rest : List Char} {c : Char}
    (h : readEscape cs = some (c, rest)) : rest.length ≤ cs.length := by
  unfold readEscape at h
  split at h
  · contradiction
  · split at h
    · cases h; exact Nat.le_succ _
    · split at h
      · exact Nat.le_succ_of_le (length_le_of_readUnicode h)
      · contradiction

/-- Reads the characters of a text and its closing quote. -/
def readChars (cs : List Char) : Option (List Char × List Char) :=
  match cs with
  | [] => none
  | c :: tail =>
    if c = '"' then some ([], tail)
    else if c = '\\' then
      match _h : readEscape tail with
      | none => none
      | some (d, rest) => (readChars rest).map fun (s, rest') => (d :: s, rest')
    else if c.toNat < 0x20 then none
    else (readChars tail).map fun (s, rest) => (c :: s, rest)
termination_by cs.length
decreasing_by
  · exact Nat.lt_succ_of_le (length_le_of_readEscape _h)
  · exact Nat.lt_succ_self _

theorem length_lt_of_readChars {cs s rest : List Char} (h : readChars cs = some (s, rest)) :
    rest.length < cs.length := by
  fun_induction readChars cs generalizing s with
  | case1 => contradiction
  | case2 => cases h; exact Nat.lt_succ_self _
  | case3 => contradiction
  | case4 tail d rest' hescape _ ih =>
    have h₁ := length_le_of_readEscape hescape
    obtain ⟨⟨s', r⟩, hs, heq⟩ := Option.map_eq_some_iff.1 h
    cases heq
    have h₂ := ih hs
    simp only [List.length_cons]
    omega
  | case5 => contradiction
  | case6 c tail _ _ _ ih =>
    obtain ⟨⟨s', r⟩, hs, heq⟩ := Option.map_eq_some_iff.1 h
    cases heq
    have h₂ := ih hs
    simp only [List.length_cons]
    omega

/-- Steps over a word. -/
def readWord : (word : List Char) → List Char → Option (List Char)
  | [], cs => some cs
  | w :: ws, c :: cs => if w = c then readWord ws cs else none
  | _ :: _, [] => none

theorem length_le_of_readWord {word cs rest : List Char} (h : readWord word cs = some rest) :
    rest.length ≤ cs.length := by
  fun_induction readWord word cs with
  | case1 => cases h; exact Nat.le_refl _
  | case2 _ _ _ ih => exact Nat.le_succ_of_le (ih h)
  | case3 => contradiction
  | case4 => contradiction

section

variable [DoubleReader]

/-- The token that starts with a given character. -/
def readToken (c : Char) (tail : List Char) : Option (Token × List Char) :=
  if isMark c then some (.mark c, tail)
  else if c = '"' then (readChars tail).map fun (s, rest) => (.text (String.ofList s), rest)
  else if c = 'n' then (readWord ['u', 'l', 'l'] tail).map fun rest => (.scalar .null, rest)
  else if c = 't' then (readWord ['r', 'u', 'e'] tail).map fun rest => (.scalar (.bool true), rest)
  else if c = 'f' then
    (readWord ['a', 'l', 's', 'e'] tail).map fun rest => (.scalar (.bool false), rest)
  else
    (readNumber? (c :: tail.takeWhile isNumberChar)).map fun n =>
      (.scalar (.number n), tail.dropWhile isNumberChar)

theorem length_le_of_readToken {c : Char} {tail rest : List Char} {t : Token}
    (h : readToken c tail = some (t, rest)) : rest.length ≤ tail.length := by
  unfold readToken at h
  split at h
  · cases h; exact Nat.le_refl _
  · split at h
    · obtain ⟨⟨s, r⟩, hs, heq⟩ := Option.map_eq_some_iff.1 h
      cases heq
      exact Nat.le_of_lt (length_lt_of_readChars hs)
    · split at h
      · obtain ⟨r, hr, heq⟩ := Option.map_eq_some_iff.1 h
        cases heq
        exact length_le_of_readWord hr
      · split at h
        · obtain ⟨r, hr, heq⟩ := Option.map_eq_some_iff.1 h
          cases heq
          exact length_le_of_readWord hr
        · split at h
          · obtain ⟨r, hr, heq⟩ := Option.map_eq_some_iff.1 h
            cases heq
            exact length_le_of_readWord hr
          · obtain ⟨n, hn, heq⟩ := Option.map_eq_some_iff.1 h
            cases heq
            exact (List.dropWhile_sublist _).length_le

end

end DocPath.Json

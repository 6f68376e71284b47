import DocPath.Hex

/-!
# Quoted texts of TOML

Texts stand in double quotes, where a backslash starts an escape, or in single quotes, where
nothing is escaped. Three quotes of either kind allow line ends in the text, the first of which is
dropped when it comes at once.
-/

namespace DocPath.Toml

/-- A character that may stand in a comment or a text as it is. -/
def isAllowed (c : Char) : Bool := c == '\t' || (' ' ≤ c && c ≤ '~') || 0x80 ≤ c.toNat

/-- The character that a letter behind a backslash stands for. -/
def letterEscape? : Char → Option Char
  | 'b' => some '\x08'
  | 't' => some '\t'
  | 'n' => some '\n'
  | 'f' => some '\x0c'
  | 'r' => some '\r'
  | '"' => some '"'
  | '\\' => some '\\'
  | _ => none

/-- The character whose number is given by so many digits. -/
def readCode? (width : Nat) (cs : List Char) : Option (Char × List Char) :=
  match readHex 0 width cs with
  | none => none
  | some (n, rest) => if n.isValidChar then some (Char.ofNat n, rest) else none

/-- The character that is escaped by a backslash and what follows it. -/
def readEscape? : List Char → Option (Char × List Char)
  | [] => none
  | c :: rest =>
    match letterEscape? c with
    | some d => some (d, rest)
    | none => if c = 'u' then readCode? 4 rest else if c = 'U' then readCode? 8 rest else none

theorem length_le_of_readCode? {width : Nat} {cs rest : List Char} {c : Char}
    (h : readCode? width cs = some (c, rest)) : rest.length ≤ cs.length := by
  unfold readCode? at h
  split at h
  · contradiction
  · rename_i hhex
    split at h
    · cases h; exact length_le_of_readHex hhex
    · contradiction

theorem length_le_of_readEscape? {cs rest : List Char} {c : Char}
    (h : readEscape? cs = some (c, rest)) : rest.length ≤ cs.length := by
  unfold readEscape? at h
  split at h
  · contradiction
  · split at h
    · cases h; exact Nat.le_succ _
    · split at h
      · exact Nat.le_succ_of_le (length_le_of_readCode? h)
      · split at h
        · exact Nat.le_succ_of_le (length_le_of_readCode? h)
        · contradiction

/-! ## Texts on one line -/

/-- Reads a text in double quotes behind the opening quote. -/
def readBasic? (cs : List Char) : Option (List Char × List Char) :=
  match cs with
  | [] => none
  | c :: tail =>
    if c = '"' then some ([], tail)
    else if c = '\\' then
      match _h : readEscape? tail with
      | none => none
      | some (d, rest) => (readBasic? rest).map fun (s, rest') => (d :: s, rest')
    else if isAllowed c then (readBasic? tail).map fun (s, rest) => (c :: s, rest)
    else none
termination_by cs.length
decreasing_by
  · exact Nat.lt_succ_of_le (length_le_of_readEscape? _h)
  · exact Nat.lt_succ_self _

/-- Reads a text in single quotes behind the opening quote. -/
def readLiteral? : List Char → Option (List Char × List Char)
  | [] => none
  | c :: tail =>
    if c = '\x27' then some ([], tail)
    else if isAllowed c then (readLiteral? tail).map fun (s, rest) => (c :: s, rest)
    else none

/-! ## Texts on several lines -/

/-- Steps over a line end at the start. -/
def dropBreak : List Char → List Char
  | '\n' :: rest => rest
  | '\r' :: '\n' :: rest => rest
  | cs => cs

/-- Steps over blanks and line ends. -/
def dropSpace : List Char → List Char
  | ' ' :: rest => dropSpace rest
  | '\t' :: rest => dropSpace rest
  | '\n' :: rest => dropSpace rest
  | '\r' :: '\n' :: rest => dropSpace rest
  | cs => cs

/-- Steps over a line end behind a backslash, with the blanks around it. -/
def dropHidden? (cs : List Char) : Option (List Char) :=
  match cs.dropWhile fun c => c == ' ' || c == '\t' with
  | '\n' :: rest => some (dropSpace rest)
  | '\r' :: '\n' :: rest => some (dropSpace rest)
  | _ => none

theorem length_dropSpace_le (cs : List Char) : (dropSpace cs).length ≤ cs.length := by
  fun_induction dropSpace cs with
  | case1 _ ih | case2 _ ih | case3 _ ih => exact Nat.le_succ_of_le ih
  | case4 _ ih => exact Nat.le_succ_of_le (Nat.le_succ_of_le ih)
  | case5 => exact Nat.le_refl _

theorem length_le_of_dropHidden? {cs rest : List Char} (h : dropHidden? cs = some rest) :
    rest.length ≤ cs.length := by
  have hle := (List.dropWhile_sublist (fun c => c == ' ' || c == '\t') (l := cs)).length_le
  unfold dropHidden? at h
  split at h
  · rename_i tail heq
    cases h
    rw [heq] at hle
    have := length_dropSpace_le tail
    simp only [List.length_cons] at hle
    omega
  · rename_i tail heq
    cases h
    rw [heq] at hle
    have := length_dropSpace_le tail
    simp only [List.length_cons] at hle
    omega
  · contradiction

/-- What three quotes in a row mean: up to two more of them belong to the text before its end. -/
def readEnd (quote : Char) (rest : List Char) : List Char × List Char :=
  match rest with
  | a :: b :: rest' =>
    if a = quote ∧ b = quote then ([a, b], rest')
    else if a = quote then ([a], b :: rest') else ([], rest)
  | [a] => if a = quote then ([a], []) else ([], rest)
  | [] => ([], [])

/-- Reads a text in three double quotes behind them. -/
def readLongBasic? (cs : List Char) : Option (List Char × List Char) :=
  match cs with
  | [] => none
  | '"' :: '"' :: '"' :: rest => some (readEnd '"' rest)
  | '\r' :: '\n' :: rest => (readLongBasic? rest).map fun (s, rest') => ('\n' :: s, rest')
  | c :: tail =>
    if c = '\\' then
      -- A backslash at the end of a line hides the line end and the space behind it.
      match _h : dropHidden? tail with
      | some rest => readLongBasic? rest
      | none =>
        match _h' : readEscape? tail with
        | none => none
        | some (d, rest) => (readLongBasic? rest).map fun (s, rest') => (d :: s, rest')
    else if isAllowed c || c == '\n' then
      (readLongBasic? tail).map fun (s, rest) => (c :: s, rest)
    else none
termination_by cs.length
decreasing_by
  all_goals simp only [List.length_cons]
  · omega
  · have := length_le_of_dropHidden? _h
    omega
  · have := length_le_of_readEscape? _h'
    omega
  · omega

/-- Reads a text in three single quotes behind them. -/
def readLongLiteral? : List Char → Option (List Char × List Char)
  | [] => none
  | '\x27' :: '\x27' :: '\x27' :: rest => some (readEnd '\x27' rest)
  | '\r' :: '\n' :: rest => (readLongLiteral? rest).map fun (s, rest') => ('\n' :: s, rest')
  | c :: tail =>
    if isAllowed c || c == '\n' then (readLongLiteral? tail).map fun (s, rest) => (c :: s, rest)
    else none

/-- Reads a text in quotes of any kind; nothing if there is no quote. -/
def readText? : List Char → Option (List Char × List Char)
  | '"' :: '"' :: '"' :: rest => readLongBasic? (dropBreak rest)
  | '"' :: rest => readBasic? rest
  | '\x27' :: '\x27' :: '\x27' :: rest => readLongLiteral? (dropBreak rest)
  | '\x27' :: rest => readLiteral? rest
  | _ => none

end DocPath.Toml

import DocPath.Proofs.Run
import DocPath.Toml.Quoted
import DocPath.Toml.Writer

/-!
# Written characters

In double quotes a character stands as itself, behind a backslash as a letter, or by its number.
Each of these says what both readers of such texts need: what the reader of escapes makes of it,
and that it does not look like a quote or a hidden line end.
-/

namespace DocPath.Toml

variable {c : Char} {text : List Char}

/-! ## Control characters -/

theorem isControl_iff :
    isControl c = true ↔ (c.toNat < 32 ∧ c ≠ '\t' ∧ c ≠ '\n') ∨ c = '\x7f' := by
  have hspace : c < ' ' ↔ c.toNat < 32 := Iff.rfl
  simp [isControl, hspace, and_assoc]

theorem isAllowed_iff :
    isAllowed c = true ↔ c = '\t' ∨ (32 ≤ c.toNat ∧ c.toNat ≤ 126) ∨ 128 ≤ c.toNat := by
  have hspace : ' ' ≤ c ↔ 32 ≤ c.toNat := Iff.rfl
  have htilde : c ≤ '~' ↔ c.toNat ≤ 126 := Iff.rfl
  simp [isAllowed, hspace, htilde, or_assoc]

/-- What has not to be escaped may stand in a text, but for the line feed on one line. -/
theorem isAllowed_of_isControl (h : isControl c = false) (hbreak : c ≠ '\n') :
    isAllowed c = true := by
  have hcontrol := mt isControl_iff.2 (Bool.eq_false_iff.1 h)
  have hdelete : c = '\x7f' ↔ c.toNat = 127 := Char.toNat_inj.symm
  rw [hdelete] at hcontrol
  rw [isAllowed_iff]
  by_cases htab : c = '\t'
  · exact .inl htab
  · simp only [htab, hbreak, ne_eq, not_false_eq_true, and_true] at hcontrol
    omega

/-- What has not to be escaped may stand in a text on several lines. -/
theorem isAllowed_or_break (h : isControl c = false) : isAllowed c = true ∨ c = '\n' := by
  by_cases hbreak : c = '\n'
  · exact .inr hbreak
  · exact .inl (isAllowed_of_isControl h hbreak)

theorem ne_return (h : isAllowed c = true ∨ c = '\n') : c ≠ '\r' := by
  rintro rfl
  revert h
  decide

theorem toNat_lt_of_isControl (h : isControl c = true) : c.toNat < 0x80 := by
  rcases isControl_iff.1 h with ⟨hsmall, -⟩ | rfl
  · omega
  · decide

theorem upperHex_small {n : Nat} (h : n < 0x80) :
    upperHex 4 n =
      ['0', '0', (Nat.digitChar (n / 16)).toUpper, (Nat.digitChar (n % 16)).toUpper] := by
  revert n
  decide

theorem hexDigit?_toUpper {d : Nat} (h : d < 16) :
    hexDigit? (Nat.digitChar d).toUpper = some d := by
  revert d
  decide

theorem readCode?_upperHex (h : c.toNat < 0x80) (tail : List Char) :
    readCode? 4 (upperHex 4 c.toNat ++ tail) = some (c, tail) := by
  have hzero : hexDigit? '0' = some 0 := by decide
  have hhigh : hexDigit? (Nat.digitChar (c.toNat / 16)).toUpper = some (c.toNat / 16) :=
    hexDigit?_toUpper (by omega)
  have hlow : hexDigit? (Nat.digitChar (c.toNat % 16)).toUpper = some (c.toNat % 16) :=
    hexDigit?_toUpper (by omega)
  have hvalue : (((0 * 16 + 0) * 16 + 0) * 16 + c.toNat / 16) * 16 + c.toNat % 16 = c.toNat := by
    omega
  have hvalid : c.toNat.isValidChar := .inl (by omega)
  rw [upperHex_small h, readCode?]
  simp only [List.cons_append, List.nil_append, readHex, hzero, hhigh, hlow, hvalue,
    if_pos hvalid, Char.ofNat_toNat]

/-! ## Characters -/

/-- A text that stands for a character in double quotes: a backslash and a code, or the character
itself. `bare` says that quotes and line feeds may stand as they are. -/
inductive Written (bare : Bool) (c : Char) : List Char → Prop where
  | code {code : List Char} (shown : ∀ tail, dropHidden? (code ++ tail) = none)
      (reads : ∀ tail, readEscape? (code ++ tail) = some (c, tail)) : Written bare c ('\\' :: code)
  | plain (notQuote : bare = false → c ≠ '"') (notBackslash : c ≠ '\\')
      (allowed : isAllowed c = true ∨ bare = true ∧ c = '\n') : Written bare c [c]

theorem dropHidden?_cons (h : c ∉ [' ', '\t', '\n', '\r']) (tail : List Char) :
    dropHidden? (c :: tail) = none := by
  simp only [List.mem_cons, List.not_mem_nil, or_false, not_or] at h
  obtain ⟨hspace, htab, hfeed, hreturn⟩ := h
  rw [dropHidden?, List.dropWhile_cons_of_neg (by simp [hspace, htab])]
  split
  · rename_i heq
    exact absurd (List.cons.inj heq).1 hfeed
  · rename_i heq
    exact absurd (List.cons.inj heq).1 hreturn
  · rfl

theorem Written.letter {bare : Bool} {d : Char} (h : letterEscape? d = some c)
    (hd : d ∉ [' ', '\t', '\n', '\r']) : Written bare c ['\\', d] := by
  refine .code (fun tail => dropHidden?_cons hd tail) fun tail => ?_
  rw [List.singleton_append, readEscape?, h]

theorem Written.number {bare : Bool} (h : isControl c = true) :
    Written bare c ('\\' :: 'u' :: upperHex 4 c.toNat) := by
  refine .code (fun tail => dropHidden?_cons (by decide) _) fun tail => ?_
  have hletter : letterEscape? 'u' = none := rfl
  rw [List.cons_append, readEscape?, hletter, if_pos rfl,
    readCode?_upperHex (toNat_lt_of_isControl h)]

/-- Every character is written. -/
theorem written_escape (c : Char) (bare : Bool) : Written bare c (escape c bare) := by
  unfold escape
  split
  · exact .letter rfl (by decide)
  · exact .letter rfl (by decide)
  · cases bare with
    | true => exact .plain (by decide) (by decide) (.inr ⟨rfl, rfl⟩)
    | false => exact .letter rfl (by decide)
  · exact .letter rfl (by decide)
  · exact .letter rfl (by decide)
  · cases bare with
    | true => exact .plain (by decide) (by decide) (.inl rfl)
    | false => exact .letter rfl (by decide)
  · exact .letter rfl (by decide)
  · rename_i hfeed _ _ hquote hbackslash
    split
    · rename_i hcontrol
      exact .number hcontrol
    · rename_i hcontrol
      exact .plain (fun _ => hquote) hbackslash
        (.inl (isAllowed_of_isControl (Bool.eq_false_iff.2 hcontrol) hfeed))

/-- What is written does not show as a quote, unless it is one that may stand as it is. -/
theorem Written.stops_quote {bare : Bool} (h : Written bare c text) (hc : bare = true → c ≠ '"')
    (tail : List Char) : Stops (· == '"') (text ++ tail) := by
  cases h with
  | code => exact stops_cons.2 (by decide)
  | plain hquote =>
      have hne : c ≠ '"' := by
        cases bare with
        | true => exact hc rfl
        | false => exact hquote rfl
      exact stops_cons.2 (by simpa using hne)

/-- A line end, which would be dropped behind three quotes. -/
def isBreak (c : Char) : Bool := c == '\n' || c == '\r'

theorem Written.stops_break {bare : Bool} (h : Written bare c text) (hc : c ≠ '\n')
    (tail : List Char) : Stops isBreak (text ++ tail) := by
  cases h with
  | code => exact stops_cons.2 (by decide)
  | plain _ _ hallowed =>
      have hreturn : c ≠ '\r' := ne_return (hallowed.imp_right And.right)
      exact stops_cons.2 (by simp [isBreak, hc, hreturn])

end DocPath.Toml

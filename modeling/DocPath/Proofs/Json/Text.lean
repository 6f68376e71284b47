import DocPath.Json.Token
import DocPath.Json.Writer

/-!
# Quoted texts read back

Every character is written in quotes so that the reader gives it back: as itself, as a letter
behind a backslash, or by its number if it is a control character without a letter.
-/

namespace DocPath.Json

/-! ## One step of the reader -/

theorem readChars_quote (tail : List Char) : readChars ('"' :: tail) = some ([], tail) := by
  simp [readChars]

theorem readChars_escaped {tail rest : List Char} {c : Char}
    (h : readEscape tail = some (c, rest)) :
    readChars ('\\' :: tail) = (readChars rest).map fun (s, rest') => (c :: s, rest') := by
  rw [readChars, if_neg (by decide), if_pos rfl]
  split
  · rename_i hnone
    rw [h] at hnone
    cases hnone
  · rename_i hsome
    rw [h] at hsome
    cases hsome
    rfl

theorem readChars_plain {c : Char} (hquote : c ≠ '"') (hbackslash : c ≠ '\\')
    (hcontrol : ¬c.toNat < 0x20) (tail : List Char) :
    readChars (c :: tail) = (readChars tail).map fun (s, rest) => (c :: s, rest) := by
  rw [readChars, if_neg hquote, if_neg hbackslash, if_neg hcontrol]

theorem readEscape_letter {c d : Char} (h : letterEscape? c = some d) (tail : List Char) :
    readEscape (c :: tail) = some (d, tail) := by
  rw [readEscape, h]

/-! ## Control characters -/

theorem hex_control {n : Nat} (h : n < 0x20) :
    hex 4 n = ['0', '0', Nat.digitChar (n / 16), Nat.digitChar (n % 16)] := by
  revert n
  decide

theorem hexDigit?_digitChar {d : Nat} (h : d < 16) : hexDigit? (Nat.digitChar d) = some d := by
  revert d
  decide

theorem readHex_control {n : Nat} (h : n < 0x20) (tail : List Char) :
    readHex 0 4 (hex 4 n ++ tail) = some (n, tail) := by
  have hzero : hexDigit? '0' = some 0 := by decide
  have hhigh : hexDigit? (Nat.digitChar (n / 16)) = some (n / 16) :=
    hexDigit?_digitChar (by omega)
  have hlow : hexDigit? (Nat.digitChar (n % 16)) = some (n % 16) :=
    hexDigit?_digitChar (by omega)
  have hvalue : ((0 * 16 + 0) * 16 + 0) * 16 + n / 16 = n / 16 := by omega
  rw [hex_control h]
  simp only [List.cons_append, List.nil_append, readHex, hzero, hhigh, hlow, hvalue]
  congr 2
  omega

theorem readEscape_control {c : Char} (h : c.toNat < 0x20) (tail : List Char) :
    readEscape ('u' :: (hex 4 c.toNat ++ tail)) = some (c, tail) := by
  have hletter : letterEscape? 'u' = none := by decide
  rw [readEscape, hletter, if_pos rfl, readUnicode, readHex_control h]
  have hwhole : c.toNat < 0xD800 ∨ 0xDFFF < c.toNat := by omega
  simp only [if_pos hwhole, Char.ofNat_toNat]

/-! ## Texts -/

/-- A character that was written is read, and the reader goes on behind it. -/
theorem readChars_escape (c : Char) (tail : List Char) :
    readChars (escape c ++ tail) = (readChars tail).map fun (s, rest) => (c :: s, rest) := by
  unfold escape
  split
  · exact readChars_escaped (readEscape_letter rfl tail)
  · exact readChars_escaped (readEscape_letter rfl tail)
  · exact readChars_escaped (readEscape_letter rfl tail)
  · exact readChars_escaped (readEscape_letter rfl tail)
  · exact readChars_escaped (readEscape_letter rfl tail)
  · exact readChars_escaped (readEscape_letter rfl tail)
  · exact readChars_escaped (readEscape_letter rfl tail)
  · rename_i hquote hbackslash _ _ _ _ _
    split
    · rename_i hcontrol
      exact readChars_escaped (readEscape_control hcontrol tail)
    · rename_i hplain
      exact readChars_plain hquote hbackslash hplain tail

theorem readChars_flatMap_escape (s tail : List Char) :
    readChars (s.flatMap escape ++ '"' :: tail) = some (s, tail) := by
  induction s with
  | nil => exact readChars_quote tail
  | cons c s ih =>
      rw [List.flatMap_cons, List.append_assoc, readChars_escape, ih]
      rfl

/-- A quoted text is a token that gives the text back. -/
theorem readToken_quoted [DoubleReader] (s : String) (tail : List Char) :
    readToken '"' (s.toList.flatMap escape ++ '"' :: tail) = some (.text s, tail) := by
  have hmark : isMark '"' = false := by decide
  rw [readToken, hmark, if_neg Bool.false_ne_true, if_pos rfl, readChars_flatMap_escape]
  simp only [Option.map_some, String.ofList_toList]

end DocPath.Json

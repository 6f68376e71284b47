import DocPath.Path.Printer
import DocPath.Proofs.Path.Grammar

/-!
# The canonical text spells its path

Each segment is printed as one of the atoms of the grammar, and what is printed behind it starts
with a dot or a bracket, so neighbouring atoms never run into each other. That the canonical text
is read back is then the completeness of the reader.
-/

namespace DocPath.Path

theorem isBareKey_iff {cs : List Char} : isBareKey cs = true ↔ IsName cs := by
  simp [isBareKey, IsName]

theorem spellsQuoted_escape (key : List Char) : SpellsQuoted (escape key) key := by
  induction key with
  | nil => exact .nil
  | cons c key ih =>
      rw [escape]
      by_cases hc : c = '"' ∨ c = '\\'
      · rw [if_pos hc]
        exact .escaped hc ih
      · rw [if_neg hc]
        exact .char (not_or.1 hc) ih

theorem spellsBracket_index (i : UInt64) (first : Bool) :
    SpellsBracket (segmentChars first (.index i)) (.index i) := by
  have hvalue : decimalValue (Nat.toDigits 10 i.toNat) = i.toNat :=
    decimalValue_toDigits i.toNat
  have hdigits : ∀ d ∈ Nat.toDigits 10 i.toNat, d.isDigit = true :=
    fun d hd => Nat.isDigit_of_mem_toDigits (by decide) (by decide) hd
  have hsmall : decimalValue (Nat.toDigits 10 i.toNat) < UInt64.size := by
    rw [hvalue]
    exact i.toNat_lt
  have hspells := SpellsBracket.index Nat.toDigits_ne_nil hdigits hsmall
  rwa [hvalue, UInt64.ofNat_toNat] at hspells

theorem spellsBracket_key {name : String} (h : ¬IsName name.toList) (first : Bool) :
    SpellsBracket (segmentChars first (.key name)) (.key name) := by
  have hspells := SpellsBracket.key (spellsQuoted_escape name.toList)
  rw [segmentChars, if_neg (mt isBareKey_iff.1 h)]
  rwa [String.ofList_toList] at hspells

/-- A bare key in front of what is printed behind it. -/
theorem spellsAtoms_key {name : String} (h : IsName name.toList) (first : Bool)
    {cs : List Char} {p : Path} (rest : SpellsRest cs p) :
    SpellsAtoms first (segmentChars first (.key name) ++ cs) (.key name :: p) := by
  rw [segmentChars, if_pos (isBareKey_iff.2 h)]
  cases first with
  | true =>
      have hspells := Spells.name h rest
      rwa [String.ofList_toList] at hspells
  | false =>
      have hspells := SpellsRest.name h rest
      rwa [String.ofList_toList] at hspells

theorem spellsAtoms_chars (first : Bool) (p : Path) : SpellsAtoms first (chars first p) p := by
  induction p generalizing first with
  | nil => exact .nil first
  | cons s p ih =>
      have hrest : SpellsRest (chars false p) p := ih false
      rw [chars]
      cases s with
      | index i => exact .bracket (spellsBracket_index i first) hrest
      | key name =>
          by_cases hname : IsName name.toList
          · exact spellsAtoms_key hname first hrest
          · exact .bracket (spellsBracket_key hname first) hrest

/-- The canonical text of every path is read back as that path. -/
theorem parse_text (p : Path) : parse (text p) = .ok p := by
  have htext : (text p).toList = chars true p := String.toList_ofList
  refine parse_eq_ok_iff.2 ?_
  rw [htext]
  exact spellsAtoms_chars true p

end DocPath.Path

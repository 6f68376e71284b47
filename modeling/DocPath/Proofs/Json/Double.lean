import DocPath.Proofs.Binary64.Decimal
import DocPath.Proofs.Json.Number
import DocPath.Value.Shape

/-!
# Doubles read back

A double is written as the shortest decimal in its interval, in one of three layouts or with an
exponent. Each of them is a numeral with a point or an exponent and the value of the decimal, so a
reader that takes the nearest double reads it as the double whose interval the decimal lies in.
-/

namespace DocPath

namespace Numeral

/-- The exact value of a numeral. -/
def value (n : Numeral) : ℚ :=
  decimalValue (n.whole ++ n.fraction.getD []) *
    10 ^ (n.exponent.getD 0 - ((n.fraction.getD []).length : ℤ))

theorem takeWhile_digits {whole rest : List Char} (hwhole : ∀ c ∈ whole, c.isDigit = true)
    (hrest : Stops Char.isDigit rest) :
    (whole ++ rest).takeWhile Char.isDigit = whole ∧
      (whole ++ rest).dropWhile Char.isDigit = rest :=
  takeWhile_dropWhile_iff.2 ⟨rfl, hwhole, hrest⟩

theorem read?_point {whole fraction rest : List Char} (hwhole : ∀ c ∈ whole, c.isDigit = true)
    (hfraction : ∀ c ∈ fraction, c.isDigit = true) (hrest : Stops Char.isDigit rest) :
    read? (whole ++ '.' :: (fraction ++ rest)) = readEnd? whole (some fraction) rest := by
  obtain ⟨htake, hdrop⟩ := takeWhile_digits hwhole (stops_cons.2 (by decide) :
    Stops Char.isDigit ('.' :: (fraction ++ rest)))
  obtain ⟨htake', hdrop'⟩ := takeWhile_digits hfraction hrest
  rw [read?, htake, hdrop]
  simp only [htake', hdrop']

theorem read?_exponent {whole : List Char} (cs : List Char)
    (hwhole : ∀ c ∈ whole, c.isDigit = true) :
    read? (whole ++ 'e' :: cs) = readEnd? whole none ('e' :: cs) := by
  obtain ⟨htake, hdrop⟩ := takeWhile_digits hwhole (stops_cons.2 (by decide) :
    Stops Char.isDigit ('e' :: cs))
  rw [read?, htake, hdrop]
  rfl

theorem isDigits_decimal (n : ℕ) : isDigits (decimal n).toList = true := by
  rw [isDigits, decimal, String.toList_ofList]
  simp only [Bool.and_eq_true, Bool.not_eq_true', List.isEmpty_eq_false_iff]
  exact ⟨Nat.toDigits_ne_nil, List.all_eq_true.2 (isDigit_toDigits n)⟩

end Numeral

namespace Json

/-- A numeral as doubles are written: digits in front, and a point with digits behind it or an
exponent. -/
structure IsDoubleNumeral (n : Numeral) : Prop where
  digits : ∀ c ∈ n.whole ++ n.fraction.getD [], c.isDigit = true
  whole : isWholePart n.whole = true
  fraction : n.fraction ≠ some []
  notWhole : n.isWhole = false

/-- A text that spells a decimal as doubles are written. -/
def SpellsDecimal (cs : List Char) (s : Scientific) : Prop :=
  ∃ n, Numeral.read? cs = some n ∧ IsDoubleNumeral n ∧ n.value = s.value

/-- The sign of an exponent is always written. -/
theorem readExponent?_text (e : ℤ) :
    Numeral.readExponent? (if e < 0 then "-" ++ decimal e.natAbs
      else doubleLayout.exponentPlus ++ decimal e.toNat).toList = some e := by
  have hplus : doubleLayout.exponentPlus.toList = ['+'] := rfl
  have hminus : "-".toList = ['-'] := rfl
  split
  · have hvalue := decimalValue_decimal e.natAbs
    rw [String.toList_append, hminus, List.singleton_append,
      Numeral.readExponent?, if_pos (Numeral.isDigits_decimal _), hvalue, Option.some.injEq]
    omega
  · have hvalue := decimalValue_decimal e.toNat
    rw [String.toList_append, hplus, List.singleton_append,
      Numeral.readExponent?, if_pos (Numeral.isDigits_decimal _), hvalue, Option.some.injEq]
    omega

/-! ## Layouts -/

theorem isDigit_replicate_zero (k : ℕ) : ∀ c ∈ List.replicate k '0', c.isDigit = true := by
  intro c hc
  rw [List.eq_of_mem_replicate hc]
  rfl

/-- Digits around a point spell what the digits are worth. -/
theorem spellsDecimal_point {s : Scientific} {whole fraction : List Char}
    (hdigits : ∀ c ∈ whole ++ fraction, c.isDigit = true) (hwhole : isWholePart whole = true)
    (hfraction : fraction ≠ [])
    (hvalue : (decimalValue (whole ++ fraction) : ℚ) * 10 ^ (0 - (fraction.length : ℤ)) = s.value) :
    SpellsDecimal (whole ++ '.' :: fraction) s := by
  obtain ⟨hfront, hback⟩ := List.forall_mem_append.1 hdigits
  have hread := Numeral.read?_point hfront hback stops_nil
  rw [List.append_nil] at hread
  exact ⟨⟨whole, some fraction, none⟩, hread,
    ⟨hdigits, hwhole, fun h => hfraction (Option.some.inj h), rfl⟩, hvalue⟩

section

variable {s : Scientific} (hs : s.IsProper)
include hs

theorem Scientific.IsProper.length_pos : 0 < s.digits.length := by
  obtain ⟨c, rest, hdigits, -⟩ := hs.first
  rw [hdigits]
  exact Nat.succ_pos _

/-- Below one the digits stand behind a point and zeros. -/
theorem spellsDecimal_small (h : s.exponent < 0) :
    SpellsDecimal (['0'] ++ '.' ::
      (List.replicate (-s.exponent - 1).toNat '0' ++ s.digits)) s := by
  obtain ⟨k, hk⟩ : ∃ k, (-s.exponent - 1).toNat = k := ⟨_, rfl⟩
  have hlength := Scientific.IsProper.length_pos hs
  have hzero : decimalValue ['0'] = 0 := rfl
  have hvalue : decimalValue (['0'] ++ (List.replicate k '0' ++ s.digits)) =
      decimalValue s.digits := by
    rw [decimalValue_append, decimalValue_append, decimalValue_replicate_zero, hzero]
    simp
  have hexponent : (0 : ℤ) - ((List.replicate k '0' ++ s.digits).length : ℤ) =
      s.exponent + 1 - s.digits.length := by
    rw [List.length_append, List.length_replicate]
    omega
  rw [hk]
  refine spellsDecimal_point ?_ rfl ?_ ?_
  · exact List.forall_mem_append.2 ⟨isDigit_replicate_zero 1,
      List.forall_mem_append.2 ⟨isDigit_replicate_zero k, hs.digits⟩⟩
  · rw [← List.length_pos_iff, List.length_append]
    omega
  · rw [hvalue, hexponent, Scientific.value]

/-- A whole number has zeros behind its digits and one more behind the point. -/
theorem spellsDecimal_whole (h : 0 ≤ s.exponent)
    (hlength : s.digits.length ≤ s.exponent.toNat + 1) :
    SpellsDecimal ((s.digits ++
      List.replicate (s.exponent.toNat + 1 - s.digits.length) '0') ++ '.' :: ['0']) s := by
  obtain ⟨k, hk⟩ : ∃ k, s.exponent.toNat + 1 - s.digits.length = k := ⟨_, rfl⟩
  have hzero : decimalValue ['0'] = 0 := rfl
  have hvalue : decimalValue ((s.digits ++ List.replicate k '0') ++ ['0']) =
      decimalValue s.digits * 10 ^ (k + 1) := by
    rw [decimalValue_append, decimalValue_append, decimalValue_replicate_zero, hzero,
      List.length_replicate]
    simp only [Nat.pow_eq, List.length_singleton]
    ring
  have hexponent : s.exponent + 1 - s.digits.length = ((k + 1 : ℕ) : ℤ) + (0 - (1 : ℕ)) := by
    omega
  rw [hk]
  refine spellsDecimal_point ?_ ?_ (List.cons_ne_nil _ _) ?_
  · exact List.forall_mem_append.2
      ⟨List.forall_mem_append.2 ⟨hs.digits, isDigit_replicate_zero k⟩, isDigit_replicate_zero 1⟩
  · obtain ⟨c, rest, hdigits, hc⟩ := hs.first
    simp [isWholePart, hdigits, hc]
  · rw [hvalue, Scientific.value, hexponent, zpow_add₀ (by norm_num), zpow_natCast,
      List.length_singleton]
    push_cast
    ring

/-- In between the point stands among the digits. -/
theorem spellsDecimal_mixed (h : 0 ≤ s.exponent)
    (hlength : s.exponent.toNat + 1 < s.digits.length) :
    SpellsDecimal (s.digits.take (s.exponent.toNat + 1) ++ '.' ::
      s.digits.drop (s.exponent.toNat + 1)) s := by
  obtain ⟨k, hk⟩ : ∃ k, s.exponent.toNat = k := ⟨_, rfl⟩
  rw [hk] at hlength ⊢
  have hexponent : (0 : ℤ) - ((s.digits.drop (k + 1)).length : ℤ) =
      s.exponent + 1 - s.digits.length := by
    rw [List.length_drop]
    omega
  refine spellsDecimal_point ?_ ?_ ?_ ?_
  · rw [List.take_append_drop]
    exact hs.digits
  · obtain ⟨c, rest, hdigits, hc⟩ := hs.first
    simp [isWholePart, hdigits, hc]
  · rw [← List.length_pos_iff, List.length_drop]
    omega
  · rw [List.take_append_drop, hexponent, Scientific.value]

/-- With an exponent one digit stands in front of the point. -/
theorem spellsDecimal_exponential {cs : List Char}
    (hcs : Numeral.readExponent? cs = some s.exponent) :
    SpellsDecimal (s.digits.take 1 ++
      (if (s.digits.drop 1).isEmpty then [] else '.' :: s.digits.drop 1) ++ 'e' :: cs) s := by
  obtain ⟨c, rest, hdigits, hc⟩ := hs.first
  have hall := hs.digits
  have hstop : Stops Char.isDigit ('e' :: cs) := stops_cons.2 (by decide)
  have hvalue : s.value =
      (decimalValue (c :: rest) : ℚ) * 10 ^ (s.exponent - (rest.length : ℤ)) := by
    have hexponent : s.exponent + 1 - ((c :: rest).length : ℤ) = s.exponent - rest.length := by
      rw [List.length_cons]
      push_cast
      ring
    rw [Scientific.value, hdigits, hexponent]
  rw [hdigits] at hall ⊢
  obtain ⟨hfirst, hrest⟩ := List.forall_mem_cons.1 hall
  have hwhole : ∀ d ∈ [c], d.isDigit = true := List.forall_mem_singleton.2 hfirst
  have hpart : isWholePart [c] = true := by simp [isWholePart, hc]
  cases rest with
  | nil =>
      have hread := Numeral.read?_exponent cs hwhole
      rw [Numeral.readEnd?, if_pos (.inl rfl), hcs] at hread
      exact ⟨⟨[c], none, some s.exponent⟩, hread,
        ⟨by simpa using hfirst, hpart, by simp, rfl⟩, by simpa [Numeral.value] using hvalue.symm⟩
  | cons d rest =>
      have hread := Numeral.read?_point hwhole hrest hstop
      rw [Numeral.readEnd?, if_pos (.inl rfl), hcs] at hread
      refine ⟨⟨[c], some (d :: rest), some s.exponent⟩, by simpa using hread,
        ⟨hall, hpart, by simp, rfl⟩, ?_⟩
      rw [hvalue, Numeral.value]
      rfl

theorem spellsDecimal_positional : SpellsDecimal (doubleLayout.positional s).toList s := by
  rw [Layout.positional]
  split
  · rename_i hsmall
    have hspells := spellsDecimal_small hs hsmall
    simpa using hspells
  · rename_i hlarge
    simp only
    split
    · rename_i hlength
      have hspells := spellsDecimal_whole hs (by omega) hlength
      simpa [doubleLayout] using hspells
    · rename_i hlength
      have hspells := spellsDecimal_mixed hs (by omega) (by omega)
      simpa using hspells

theorem spellsDecimal_exponentialText :
    SpellsDecimal (doubleLayout.exponential s).toList s := by
  have hspells := spellsDecimal_exponential hs (readExponent?_text s.exponent)
  rw [Layout.exponential]
  simpa [apply_ite String.toList] using hspells

end

/-! ## Doubles -/

/-- The finite doubles in a value are read back from their texts. -/
def ReadsBackDoubles [DoubleReader] (v : Value) : Prop :=
  ∀ x, .double x ∈ v.numbers → x.isFinite = true → ReadsBack (.double x)

/-- The canonical numbers in such a value are read back from their texts, whatever they are. -/
theorem ReadsBackDoubles.readsBack [DoubleReader] {v : Value} (hv : ReadsBackDoubles v)
    {n : Number} (hn : n ∈ v.numbers) (h : n.IsCanonical) : ReadsBack n := by
  cases n with
  | int i => exact readsBack_int i
  | nat n => exact readsBack_nat h
  | double x => exact hv x hn h

section

open scoped Nearest

/-- What spells the shortest decimal of a double is read as the double. -/
theorem readNumber?_of_spellsDecimal {x : Binary64} (hfinite : x.isFinite = true)
    (hzero : x.isZero = false) {cs : List Char}
    (h : SpellsDecimal cs (x.shortest doubleLayout.tie)) :
    readNumber? ((if x.isNegative then ['-'] else []) ++ cs) = some (.double x) := by
  obtain ⟨n, hread, hn, hvalue⟩ := h
  obtain ⟨hpoint, hproper⟩ := Binary64.shortest_spec doubleLayout.tie hfinite hzero
  rw [← hvalue, Numeral.value] at hpoint
  have hdouble : n.toDouble x.isNegative = x :=
    Binary64.ofDecimal_eq hfinite hzero hn.digits hpoint
  have hnumber : numberOf? x.isNegative n = some (.double x) := by
    have hnearest : DoubleReader.toDouble x.isNegative n = x := hdouble
    simp [numberOf?, hn.notWhole, doubleOf?, hnearest, hfinite]
  have hcheck : (isWholePart n.whole && n.fraction != some []) = true := by
    simp [hn.whole, hn.fraction]
  have hhead : (cs.head? == some '-') = false := by
    have hwhole := (isNumberChar_of_read? hread).1
    cases cs with
    | nil => rfl
    | cons c cs =>
        have hne : c ≠ '-' := by
          rintro rfl
          have hempty := hn.whole
          rw [hwhole] at hempty
          cases hempty
        simpa using hne
  cases hsign : x.isNegative with
  | true =>
      rw [hsign] at hnumber
      simp [readNumber?, hread, hcheck, hnumber]
  | false =>
      rw [hsign] at hnumber
      simp [readNumber?, hhead, hread, hcheck, hnumber]

theorem spellsDecimal_shortest {x : Binary64} (hfinite : x.isFinite = true)
    (hzero : x.isZero = false) :
    SpellsDecimal (if doubleLayout.isPositional (x.shortest doubleLayout.tie).exponent
      then doubleLayout.positional (x.shortest doubleLayout.tie)
      else doubleLayout.exponential (x.shortest doubleLayout.tie)).toList
      (x.shortest doubleLayout.tie) := by
  have hproper := (Binary64.shortest_spec doubleLayout.tie hfinite hzero).2
  split
  · exact spellsDecimal_positional hproper
  · exact spellsDecimal_exponentialText hproper

/-- A finite double is read back from its text. -/
theorem readsBack_double {x : Binary64} (hfinite : x.isFinite = true) :
    ReadsBack (.double x) := by
  rw [ReadsBack, numberText]
  cases hzero : x.isZero with
  | true =>
      have hword : x.magnitudeWord = 0 := by simpa [Binary64.isZero] using hzero
      rw [← Binary64.ofMagnitudeWord_magnitudeWord x, hword]
      cases x.isNegative with
      | true => decide +kernel
      | false => decide +kernel
  | false =>
      have hnumber : x.isNaN = false := by
        simp only [Binary64.isFinite, Binary64.isNaN, decide_eq_true_eq,
          decide_eq_false_iff_not] at hfinite ⊢
        omega
      have hspells := spellsDecimal_shortest hfinite hzero
      have hread := readNumber?_of_spellsDecimal hfinite hzero hspells
      simpa [Layout.text, hnumber, hfinite, hzero, apply_ite String.toList] using hread

/-- Every value is read back from its text as far as its doubles are concerned. -/
theorem readsBackDoubles_nearest (v : Value) : ReadsBackDoubles v :=
  fun _ _ hfinite => readsBack_double hfinite

end

end Json

end DocPath

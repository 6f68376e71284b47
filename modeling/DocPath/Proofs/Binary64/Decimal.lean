import Mathlib.Data.List.TakeWhile
import DocPath.Proofs.Binary64.Shortest
import DocPath.Proofs.Path.Index

/-!
# Decimals of doubles

The value of a decimal in scientific form, and the double nearest to digits and a power of ten. Far
outside the range of doubles no power is formed, which never concerns a point in the interval of a
double.
-/

namespace DocPath

theorem decimalValue_replicate_zero (n : ℕ) : decimalValue (List.replicate n '0') = 0 := by
  rw [decimalValue, Nat.ofDigitChars_replicate_zero, Nat.mul_zero]

theorem decimalValue_dropWhile_zero (digits : List Char) :
    decimalValue (digits.dropWhile (· == '0')) = decimalValue digits := by
  induction digits with
  | nil => rfl
  | cons c digits ih =>
      by_cases hc : c = '0'
      · subst hc
        rw [List.dropWhile_cons_of_pos (by rfl), ih]
        rfl
      · rw [List.dropWhile_cons_of_neg (by simpa using hc)]

/-- Digits without needless zeros in front are as many as their value needs. -/
theorem toDigits_decimalValue_dropWhile {digits : List Char}
    (hdigits : ∀ c ∈ digits, c.isDigit = true) (hpos : 0 < decimalValue digits) :
    Nat.toDigits 10 (decimalValue digits) = digits.dropWhile (· == '0') := by
  rw [← decimalValue_dropWhile_zero] at hpos ⊢
  apply Segment.toDigits_decimalValue
  cases hcs : digits.dropWhile (· == '0') with
  | nil =>
      rw [hcs] at hpos
      exact absurd hpos (by decide)
  | cons c cs =>
      have hall : ∀ d ∈ c :: cs, d.isDigit = true := by
        intro d hd
        rw [← hcs] at hd
        exact hdigits d ((List.dropWhile_sublist _).subset hd)
      refine Segment.isCanonicalIndex_cons.2 ⟨hall, fun hc => ?_⟩
      have hstop := List.head?_dropWhile_not (· == '0') digits
      rw [hcs] at hstop
      simp [hc] at hstop

theorem lt_pow_length_toDigits (n : ℕ) : n < 10 ^ (Nat.toDigits 10 n).length :=
  (Nat.length_toDigits_le_iff (by decide) Nat.length_toDigits_pos).1 le_rfl

theorem pow_length_toDigits_le {n : ℕ} (hn : 0 < n) :
    10 ^ ((Nat.toDigits 10 n).length - 1) ≤ n := by
  rcases Nat.eq_zero_or_pos ((Nat.toDigits 10 n).length - 1) with hone | hmore
  · rw [hone]
    omega
  · rw [← not_lt, ← Nat.length_toDigits_le_iff (by decide) hmore]
    omega

/-- The value of a decimal in scientific form. -/
def Scientific.value (s : Scientific) : ℚ :=
  decimalValue s.digits * 10 ^ (s.exponent + 1 - s.digits.length)

/-- All digits are digits, and the first one counts. -/
structure Scientific.IsProper (s : Scientific) : Prop where
  digits : ∀ c ∈ s.digits, c.isDigit = true
  first : ∃ c rest, s.digits = c :: rest ∧ c ≠ '0'

namespace Binary64

theorem pow_ten_lt_smallest : (10 : ℚ) ^ (-331 : ℤ) < 2 ^ (-1075 : ℤ) := by
  have hnat : Nat.pow 2 1075 < Nat.pow 10 331 := by decide +kernel
  have hrat : (2 : ℚ) ^ 1075 < 10 ^ 331 := by
    simpa only [Nat.pow_eq, Nat.cast_pow, Nat.cast_ofNat] using Nat.cast_lt (α := ℚ).2 hnat
  rw [zpow_neg, zpow_neg]
  exact inv_strictAnti₀ (by positivity) hrat

theorem largest_lt_pow_ten : (2 : ℚ) ^ (1024 : ℤ) < 10 ^ (309 : ℤ) := by
  have hnat : Nat.pow 2 1024 < Nat.pow 10 309 := by decide +kernel
  have hrat : (2 : ℚ) ^ 1024 < 10 ^ 309 := by
    simpa only [Nat.pow_eq, Nat.cast_pow, Nat.cast_ofNat] using Nat.cast_lt (α := ℚ).2 hnat
  exact hrat

/-- What lies in the interval of a double lies in the range of doubles. -/
theorem InInterval.bounds {x : Binary64} {q : ℚ} (h : x.InInterval q)
    (hfinite : x.isFinite = true) (hzero : x.isZero = false) :
    (10 : ℚ) ^ (-331 : ℤ) < q ∧ q < 10 ^ (309 : ℤ) := by
  obtain ⟨hlow, hhigh, -⟩ := h
  have hpos := significand_pos hzero
  have hm : (1 : ℚ) ≤ x.significand := by exact_mod_cast hpos
  have hm' : (x.significand : ℚ) + 1 ≤ 2 ^ 53 := by exact_mod_cast significand_lt x
  constructor
  · have hunit : (2 : ℚ) ^ (-1074 : ℤ) ≤ 2 ^ x.exponent :=
      zpow_le_zpow_right₀ (by norm_num) (exponent_ge x)
    calc (10 : ℚ) ^ (-331 : ℤ) < 2 ^ (-1075 : ℤ) := pow_ten_lt_smallest
      _ = 1 / 2 * 2 ^ (-1074 : ℤ) := by
          rw [show (-1075 : ℤ) = -1074 - 1 by norm_num, zpow_sub_one₀ (by norm_num)]
          ring
      _ ≤ 1 / 2 * 2 ^ x.exponent := by gcongr
      _ ≤ (x.significand - 1 / 2) * 2 ^ x.exponent := by
          have hhalf : (1 : ℚ) / 2 ≤ x.significand - 1 / 2 := by linarith
          gcongr
      _ ≤ x.lowerEnd.toRat := le_lowerEnd hpos
      _ ≤ q := hlow
  · have hunit : (2 : ℚ) ^ x.exponent ≤ 2 ^ (971 : ℤ) :=
      zpow_le_zpow_right₀ (by norm_num) (exponent_le hfinite)
    calc q ≤ x.upperEnd.toRat := hhigh
      _ = (x.significand + 1 / 2) * 2 ^ x.exponent := upperEnd_toRat x
      _ ≤ 2 ^ 53 * 2 ^ (971 : ℤ) := by
          have hhalf : (x.significand : ℚ) + 1 / 2 ≤ 2 ^ 53 := by linarith
          gcongr
      _ = 2 ^ (1024 : ℤ) := by
          rw [← zpow_natCast, ← zpow_add₀ (by norm_num)]
          norm_num
      _ < 10 ^ (309 : ℤ) := largest_lt_pow_ten

theorem pos_of_inInterval {x : Binary64} (hfinite : x.isFinite = true) (hzero : x.isZero = false)
    {d : ℕ} {s : ℤ} (h : x.InInterval (d * 10 ^ s)) : 0 < d := by
  rcases Nat.eq_zero_or_pos d with rfl | hpos
  · have hlow := (h.bounds hfinite hzero).1
    have hsmall : (0 : ℚ) < 10 ^ (-331 : ℤ) := by positivity
    rw [Nat.cast_zero, zero_mul] at hlow
    linarith
  · exact hpos

/-- The first digit of a point in the interval of a double stands where doubles have theirs. -/
theorem place_bounds {x : Binary64} (hfinite : x.isFinite = true) (hzero : x.isZero = false)
    {n : ℕ} {exponent : ℤ} (h : x.InInterval (n * 10 ^ exponent)) :
    -330 ≤ ((Nat.toDigits 10 n).length : ℤ) + exponent ∧
      ((Nat.toDigits 10 n).length : ℤ) + exponent ≤ 310 := by
  obtain ⟨hlow, hhigh⟩ := h.bounds hfinite hzero
  have hpow : (0 : ℚ) < 10 ^ exponent := by positivity
  have hpos := pos_of_inInterval hfinite hzero h
  have hlength := Nat.length_toDigits_pos (b := 10) (n := n)
  constructor
  · have hlt : (10 : ℚ) ^ (-331 : ℤ) < 10 ^ (((Nat.toDigits 10 n).length : ℤ) + exponent) := by
      have hn : (n : ℚ) < 10 ^ (Nat.toDigits 10 n).length := by
        exact_mod_cast lt_pow_length_toDigits n
      rw [zpow_add₀ (by norm_num), zpow_natCast]
      exact hlow.trans (by gcongr)
    have := (zpow_lt_zpow_iff_right₀ (by norm_num : (1 : ℚ) < 10)).1 hlt
    omega
  · have hlt : (10 : ℚ) ^ (((Nat.toDigits 10 n).length - 1 : ℕ) + exponent : ℤ) <
        10 ^ (309 : ℤ) := by
      have hn : (10 : ℚ) ^ ((Nat.toDigits 10 n).length - 1) ≤ n := by
        exact_mod_cast pow_length_toDigits_le hpos
      rw [zpow_add₀ (by norm_num), zpow_natCast]
      exact lt_of_le_of_lt (by gcongr) hhigh
    have := (zpow_lt_zpow_iff_right₀ (by norm_num : (1 : ℚ) < 10)).1 hlt
    omega

/-- The double nearest to a point in the interval of a double is that double. -/
theorem ofDecimal_eq {x : Binary64} (hfinite : x.isFinite = true) (hzero : x.isZero = false)
    {digits : List Char} (hdigits : ∀ c ∈ digits, c.isDigit = true) {exponent : ℤ}
    (h : x.InInterval (decimalValue digits * 10 ^ exponent)) :
    ofDecimal x.isNegative digits exponent = x := by
  have hpos := pos_of_inInterval hfinite hzero h
  have hsignificant := toDigits_decimalValue_dropWhile hdigits hpos
  have hvalue : Nat.ofDigitChars 10 (digits.dropWhile (· == '0')) 0 = decimalValue digits :=
    decimalValue_dropWhile_zero digits
  obtain ⟨n, hn⟩ : ∃ n, decimalValue digits = n := ⟨_, rfl⟩
  rw [hn] at h hpos hsignificant hvalue
  obtain ⟨htop, htop'⟩ := place_bounds hfinite hzero h
  have hpoint := point_eq_div n exponent
  have htimes : 0 < n * Nat.pow 10 exponent.toNat := Nat.mul_pos hpos (Nat.pow_pos (by decide))
  have hover : 0 < Nat.pow 10 (-exponent).toNat := Nat.pow_pos (by decide)
  simp only [ofDecimal, hvalue]
  rw [← hsignificant, if_neg (by simp [hpos.ne']; omega), if_neg (by omega)]
  split
  · rename_i hexponent
    have hnone : (-exponent).toNat = 0 := by omega
    rw [hnone] at hpoint
    refine ofRatio_eq hfinite hzero htimes Nat.one_pos ?_
    rwa [hpoint] at h
  · rename_i hexponent
    have hnone : exponent.toNat = 0 := by omega
    have hsame : n * Nat.pow 10 0 = n := Nat.mul_one n
    rw [hnone, hsame] at hpoint
    refine ofRatio_eq hfinite hzero hpos hover ?_
    rwa [hpoint] at h

/-! ## Points in scientific form -/

/-- A text is what is left without the zeros at its end, and these zeros. -/
theorem exists_zeros (digits : List Char) :
    ∃ k, digits =
      (digits.reverse.dropWhile (· == '0')).reverse ++ List.replicate k '0' := by
  have hzeros : ∀ c ∈ digits.reverse.takeWhile (· == '0'), c = '0' := by
    intro c hc
    simpa using List.mem_takeWhile_imp hc
  have hsplit : digits.reverse.takeWhile (· == '0') ++ digits.reverse.dropWhile (· == '0') =
      digits.reverse := List.takeWhile_append_dropWhile
  have hjoin := congrArg List.reverse hsplit
  rw [List.reverse_append, List.reverse_reverse, List.eq_replicate_of_mem hzeros,
    List.reverse_replicate] at hjoin
  exact ⟨_, hjoin.symm⟩

/-- The decimal of a point other than zero has the value of the point. -/
theorem value_ofPoint {d : ℕ} (hd : 0 < d) (s : ℤ) :
    (Scientific.ofPoint d s).value = d * 10 ^ s ∧ (Scientific.ofPoint d s).IsProper := by
  obtain ⟨k, hk⟩ := exists_zeros (Nat.toDigits 10 d)
  obtain ⟨kept, hkept⟩ :
      ∃ kept, ((Nat.toDigits 10 d).reverse.dropWhile (· == '0')).reverse = kept := ⟨_, rfl⟩
  rw [hkept] at hk
  have hpoint : Scientific.ofPoint d s = ⟨kept, s + (Nat.toDigits 10 d).length - 1⟩ := by
    rw [Scientific.ofPoint, hkept]
  have hvalue : d = 10 ^ k * decimalValue kept := by
    have hdigits := decimalValue_toDigits d
    rw [hk, decimalValue_append, decimalValue_replicate_zero, List.length_replicate] at hdigits
    exact hdigits.symm
  rw [hpoint]
  constructor
  · have hexponent : s + ((Nat.toDigits 10 d).length : ℤ) - 1 + 1 - kept.length = k + s := by
      rw [hk, List.length_append, List.length_replicate]
      push_cast
      ring
    simp only [Scientific.value]
    rw [hexponent, zpow_add₀ (by norm_num), zpow_natCast]
    conv_rhs => rw [hvalue]
    push_cast
    ring
  · constructor
    · intro c hc
      apply Nat.isDigit_of_mem_toDigits (b := 10) (n := d) (by decide) (by decide)
      rw [hk]
      exact List.mem_append_left _ hc
    · cases kept with
      | nil =>
          have hnone : decimalValue [] = 0 := rfl
          rw [hnone, Nat.mul_zero] at hvalue
          omega
      | cons c rest =>
          refine ⟨c, rest, rfl, ?_⟩
          rintro rfl
          apply Segment.head?_toDigits_ne_zero hd
          rw [hk]
          rfl

/-- The shortest decimal of a double is in its interval. -/
theorem shortest_spec (tie : Tie) {x : Binary64} (hfinite : x.isFinite = true)
    (hzero : x.isZero = false) :
    x.InInterval (x.shortest tie).value ∧ (x.shortest tie).IsProper := by
  obtain ⟨d, s, hshortest, hpoint⟩ := exists_shortest tie hfinite hzero
  have hd := pos_of_inInterval hfinite hzero hpoint
  obtain ⟨hvalue, hproper⟩ := value_ofPoint hd s
  rw [hshortest, hvalue]
  exact ⟨hpoint, hproper⟩

end Binary64

end DocPath

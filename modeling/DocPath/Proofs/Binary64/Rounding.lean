import Mathlib.Algebra.Order.Field.Power
import Mathlib.Tactic.FieldSimp
import Mathlib.Tactic.Linarith
import Mathlib.Tactic.Ring
import DocPath.Binary64.Shortest

/-!
# Rounding to the nearest double

What lies in the interval of a double is rounded to the double. The interval reaches half a unit of
the double's significand to both sides. Only below a power of two does it reach less far down, and
there the quotient may be rounded in the next smaller unit, up to the power of two itself.
-/

namespace DocPath.Binary64

/-! ## Quotients -/

/-- The quotient as a rational number. -/
def Ratio.toRat (r : Ratio) : ℚ := r.num / r.den

theorem zpow_eq_div {b : ℕ} (hb : 0 < b) (e : ℤ) :
    (b : ℚ) ^ e = (b : ℚ) ^ e.toNat / (b : ℚ) ^ (-e).toNat := by
  have hne : (b : ℚ) ≠ 0 := by exact_mod_cast hb.ne'
  rw [← zpow_natCast, ← zpow_natCast, ← zpow_sub₀ hne]
  congr 1
  omega

theorem Ratio.toRat_ofScaled (n : ℕ) (e : ℤ) : (Ratio.ofScaled n e).toRat = n * 2 ^ e := by
  have hpow := zpow_eq_div (b := 2) (by decide) e
  push_cast at hpow
  rw [toRat, ofScaled, Nat.shiftLeft_eq, Nat.one_shiftLeft, hpow]
  push_cast
  ring

theorem Ratio.ofScaled_den_pos (n : ℕ) (e : ℤ) : 0 < (Ratio.ofScaled n e).den := by
  rw [ofScaled, Nat.one_shiftLeft]
  positivity

theorem Ratio.ofScaled_num_pos {n : ℕ} (hn : 0 < n) (e : ℤ) : 0 < (Ratio.ofScaled n e).num := by
  rw [ofScaled, Nat.shiftLeft_eq]
  positivity

theorem div_le_div_iff_cross {a b c d : ℕ} (hb : 0 < b) (hd : 0 < d) :
    (a : ℚ) / b ≤ c / d ↔ a * d ≤ c * b := by
  rw [div_le_div_iff₀ (by exact_mod_cast hb) (by exact_mod_cast hd)]
  exact_mod_cast Iff.rfl

theorem div_lt_div_iff_cross {a b c d : ℕ} (hb : 0 < b) (hd : 0 < d) :
    (a : ℚ) / b < c / d ↔ a * d < c * b := by
  rw [div_lt_div_iff₀ (by exact_mod_cast hb) (by exact_mod_cast hd)]
  exact_mod_cast Iff.rfl

/-- A quotient that lies half a unit or less from a whole number is rounded to it, a tie only if
the whole number is even. -/
theorem roundQuotient_eq {num den n : ℕ} (hden : 0 < den) (hlow : (n : ℚ) - 1 / 2 ≤ num / den)
    (hhigh : (num : ℚ) / den ≤ n + 1 / 2)
    (hodd : n % 2 = 1 → (n : ℚ) - 1 / 2 < num / den ∧ (num : ℚ) / den < n + 1 / 2) :
    roundQuotient num den = n := by
  have hpos : (0 : ℚ) < den := by exact_mod_cast hden
  have hlow' : 2 * (n * den) ≤ 2 * num + den := by
    rw [le_div_iff₀ hpos] at hlow
    have : (2 * (n * den) : ℚ) ≤ 2 * num + den := by linarith
    exact_mod_cast this
  have hhigh' : 2 * num ≤ 2 * (n * den) + den := by
    rw [div_le_iff₀ hpos] at hhigh
    have : (2 * num : ℚ) ≤ 2 * (n * den) + den := by linarith
    exact_mod_cast this
  have hodd' : n % 2 = 1 → 2 * (n * den) < 2 * num + den ∧ 2 * num < 2 * (n * den) + den := by
    intro h
    obtain ⟨hl, hh⟩ := hodd h
    rw [lt_div_iff₀ hpos] at hl
    rw [div_lt_iff₀ hpos] at hh
    have hl' : (2 * (n * den) : ℚ) < 2 * num + den := by linarith
    have hh' : (2 * num : ℚ) < 2 * (n * den) + den := by linarith
    exact ⟨by exact_mod_cast hl', by exact_mod_cast hh'⟩
  have hsplit : den * (num / den) + num % den = num := Nat.div_add_mod num den
  have hrest : num % den < den := Nat.mod_lt num hden
  rw [roundQuotient]
  generalize num / den = q at *
  generalize num % den = r at *
  have hq : q = n ∨ q + 1 = n := by
    have hle : q ≤ n := by
      by_contra hlt
      have : den * (n + 1) ≤ den * q := Nat.mul_le_mul_left den (by omega)
      nlinarith
    have hge : n ≤ q + 1 := by
      by_contra hlt
      have : (q + 2) * den ≤ n * den := Nat.mul_le_mul_right den (by omega)
      nlinarith
    omega
  rcases hq with rfl | rfl
  · have hcomm : q * den = den * q := Nat.mul_comm q den
    rw [if_neg]
    simp only [Bool.or_eq_true, decide_eq_true_eq, Bool.and_eq_true, beq_iff_eq, not_or, not_and]
    refine ⟨by omega, fun htie hq => ?_⟩
    have := (hodd' hq).2
    omega
  · have hcomm : (q + 1) * den = den * q + den := by ring
    rw [if_pos]
    simp only [Bool.or_eq_true, decide_eq_true_eq, Bool.and_eq_true, beq_iff_eq]
    by_cases hlt : den < 2 * r
    · exact .inl hlt
    · refine .inr ⟨by omega, ?_⟩
      by_contra heven
      have := (hodd' (by omega)).1
      omega

theorem pow_log2_le_div {num den : ℕ} (hnum : 0 < num) (hden : 0 < den) :
    (2 : ℚ) ^ ((num.log2 : ℤ) - den.log2 - 1) ≤ num / den := by
  have hlow : (2 : ℚ) ^ num.log2 ≤ num := by exact_mod_cast Nat.log2_self_le hnum.ne'
  have hhigh : (den : ℚ) ≤ 2 ^ (den.log2 + 1) := by exact_mod_cast Nat.lt_log2_self.le
  rw [le_div_iff₀ (by exact_mod_cast hden)]
  calc (2 : ℚ) ^ ((num.log2 : ℤ) - den.log2 - 1) * den
      ≤ 2 ^ ((num.log2 : ℤ) - den.log2 - 1) * 2 ^ (den.log2 + 1) := by gcongr
    _ = 2 ^ num.log2 := by
        rw [← zpow_natCast, ← zpow_natCast, ← zpow_add₀ (by norm_num)]
        congr 1
        push_cast
        ring
    _ ≤ num := hlow

theorem div_lt_pow_log2 (num : ℕ) {den : ℕ} (hden : 0 < den) :
    (num : ℚ) / den < 2 ^ ((num.log2 : ℤ) - den.log2 + 1) := by
  have hlow : (2 : ℚ) ^ den.log2 ≤ den := by exact_mod_cast Nat.log2_self_le hden.ne'
  have hhigh : (num : ℚ) < 2 ^ (num.log2 + 1) := by exact_mod_cast Nat.lt_log2_self
  rw [div_lt_iff₀ (by exact_mod_cast hden)]
  calc (num : ℚ) < 2 ^ (num.log2 + 1) := hhigh
    _ = 2 ^ ((num.log2 : ℤ) - den.log2 + 1) * 2 ^ den.log2 := by
        rw [← zpow_natCast, ← zpow_natCast, ← zpow_add₀ (by norm_num)]
        congr 1
        push_cast
        ring
    _ ≤ 2 ^ ((num.log2 : ℤ) - den.log2 + 1) * den := by gcongr

/-- A quotient lies in its binade. -/
theorem binade_spec {num den : ℕ} (hnum : 0 < num) (hden : 0 < den) :
    (2 : ℚ) ^ binade num den ≤ num / den ∧ (num : ℚ) / den < 2 ^ (binade num den + 1) := by
  have hreached : ∀ e : ℤ, (if 0 ≤ e then den <<< e.toNat ≤ num else den ≤ num <<< (-e).toNat) ↔
      (2 : ℚ) ^ e ≤ num / den := by
    intro e
    have hpow := zpow_eq_div (b := 2) (by decide) e
    push_cast at hpow
    rw [hpow]
    have hcross := div_le_div_iff_cross (a := 2 ^ e.toNat) (b := 2 ^ (-e).toNat) (c := num)
      (by positivity) hden
    push_cast at hcross
    rw [hcross]
    split
    · have : (-e).toNat = 0 := by omega
      rw [this, Nat.shiftLeft_eq, Nat.mul_comm]
      simp
    · have : e.toNat = 0 := by omega
      rw [this, Nat.shiftLeft_eq]
      simp
  rw [binade]
  simp only [hreached]
  split
  · rename_i h
    exact ⟨h, div_lt_pow_log2 num hden⟩
  · rename_i h
    refine ⟨pow_log2_le_div hnum hden, ?_⟩
    rw [sub_add_cancel]
    exact not_le.1 h

/-! ## Words -/

theorem ofMagnitudeWord_magnitudeWord (x : Binary64) :
    ofMagnitudeWord x.isNegative x.magnitudeWord = x := by
  have hsize : x.bits.toNat < 0x10000000000000000 := x.bits.toNat_lt
  have hword : (if x.isNegative = true then signWord + x.magnitudeWord else x.magnitudeWord) =
      x.bits.toNat := by
    simp only [isNegative, magnitudeWord, decide_eq_true_eq]
    split
    all_goals
      simp only [signWord] at *
      omega
  rw [ofMagnitudeWord, hword, UInt64.ofNat_toNat]

theorem hiddenBit_cast : ((hiddenBit : ℕ) : ℚ) = 2 ^ 52 := by
  norm_num [hiddenBit]

theorem exponent_ge (x : Binary64) : -1074 ≤ x.exponent := by
  rw [exponent]
  split
  all_goals
    simp only [hiddenBit] at *
    omega

theorem exponent_le {x : Binary64} (h : x.isFinite = true) : x.exponent ≤ 971 := by
  simp only [isFinite, decide_eq_true_eq] at h
  have hword : x.magnitudeWord < 0x7FF0000000000000 := h
  rw [exponent]
  split
  all_goals
    simp only [hiddenBit] at *
    omega

theorem significand_lt (x : Binary64) : x.significand < 2 * hiddenBit := by
  rw [significand]
  split
  all_goals
    simp only [hiddenBit] at *
    omega

theorem significand_pos {x : Binary64} (h : x.isZero = false) : 0 < x.significand := by
  simp only [isZero, beq_eq_false_iff_ne] at h
  rw [significand]
  split
  all_goals
    simp only [hiddenBit] at *
    omega

/-- Above the smallest exponent the hidden bit is set. -/
theorem hiddenBit_le_significand {x : Binary64} (h : -1074 < x.exponent) :
    hiddenBit ≤ x.significand := by
  rw [exponent] at h
  rw [significand]
  split at h
  · omega
  · rename_i hlarge
    rw [if_neg hlarge]
    omega

/-- The word is put together from the exponent and the significand, hidden bit and all. -/
theorem magnitudeWord_eq (x : Binary64) :
    (x.exponent + 1074).toNat * hiddenBit + x.significand = x.magnitudeWord := by
  rw [exponent, significand]
  split
  · simp
  · rename_i hnormal
    have hone : 1 ≤ x.magnitudeWord / hiddenBit :=
      (Nat.one_le_div_iff (by decide)).2 (not_lt.1 hnormal)
    have hsplit := Nat.div_add_mod x.magnitudeWord hiddenBit
    have hexponent : ((x.magnitudeWord / hiddenBit : ℕ) - 1075 + 1074 : ℤ).toNat =
        x.magnitudeWord / hiddenBit - 1 := by omega
    rw [hexponent, Nat.sub_mul]
    rw [Nat.mul_comm] at hsplit
    have : hiddenBit ≤ x.magnitudeWord / hiddenBit * hiddenBit := Nat.le_mul_of_pos_left _ hone
    omega

/-! ## Intervals -/

/-- The point lies in the interval of the double. The ends count when the significand is even. -/
def InInterval (x : Binary64) (q : ℚ) : Prop :=
  x.lowerEnd.toRat ≤ q ∧ q ≤ x.upperEnd.toRat ∧
    (x.significand % 2 = 1 → x.lowerEnd.toRat < q ∧ q < x.upperEnd.toRat)

theorem upperEnd_toRat (x : Binary64) :
    x.upperEnd.toRat = (x.significand + 1 / 2) * 2 ^ x.exponent := by
  rw [upperEnd, Ratio.toRat_ofScaled, zpow_sub_one₀ (by norm_num)]
  push_cast
  ring

theorem lowerEnd_toRat {x : Binary64} (hpos : 0 < x.significand)
    (h : ¬(x.significand = hiddenBit ∧ -1074 < x.exponent)) :
    x.lowerEnd.toRat = (x.significand - 1 / 2) * 2 ^ x.exponent := by
  have hcast : ((2 * x.significand - 1 : ℕ) : ℚ) = 2 * x.significand - 1 := by
    rw [Nat.cast_sub (by omega)]
    push_cast
    ring
  rw [lowerEnd, if_neg h]
  rw [Ratio.toRat_ofScaled, zpow_sub_one₀ (by norm_num), hcast]
  ring

/-- Below a power of two the interval reaches half as far. -/
theorem lowerEnd_toRat_of_power {x : Binary64} (hpower : x.significand = hiddenBit)
    (h : -1074 < x.exponent) :
    x.lowerEnd.toRat = (hiddenBit - 1 / 4) * 2 ^ x.exponent := by
  have hcast : ((4 * hiddenBit - 1 : ℕ) : ℚ) = 4 * hiddenBit - 1 := by
    rw [Nat.cast_sub (by decide)]
    push_cast
    ring
  rw [lowerEnd, if_pos ⟨hpower, h⟩, hpower]
  rw [Ratio.toRat_ofScaled, hcast, zpow_sub₀ (by norm_num)]
  ring

theorem le_lowerEnd {x : Binary64} (hpos : 0 < x.significand) :
    (x.significand - 1 / 2) * (2 : ℚ) ^ x.exponent ≤ x.lowerEnd.toRat := by
  have hpow : (0 : ℚ) < 2 ^ x.exponent := by positivity
  by_cases h : x.significand = hiddenBit ∧ -1074 < x.exponent
  · rw [lowerEnd_toRat_of_power h.1 h.2, h.1]
    nlinarith
  · rw [lowerEnd_toRat hpos h]

/-! ## Rounding -/

/-- A quotient near a whole number of units is rounded to it. -/
theorem roundScaled_eq {num den n : ℕ} (hden : 0 < den) {unit : ℤ}
    (hlow : (n - 1 / 2) * (2 : ℚ) ^ unit ≤ num / den)
    (hhigh : (num : ℚ) / den ≤ (n + 1 / 2) * 2 ^ unit)
    (hodd : n % 2 = 1 → (n - 1 / 2) * (2 : ℚ) ^ unit < num / den ∧
      (num : ℚ) / den < (n + 1 / 2) * 2 ^ unit) :
    (if 0 ≤ unit then roundQuotient num (den <<< unit.toNat)
      else roundQuotient (num <<< (-unit).toNat) den) = n := by
  have hpow : (0 : ℚ) < 2 ^ unit := by positivity
  have hd : (0 : ℚ) < den := by exact_mod_cast hden
  have hpow' := zpow_eq_div (b := 2) (by decide) unit
  push_cast at hpow'
  rw [← le_div_iff₀ hpow] at hlow
  rw [← div_le_iff₀ hpow] at hhigh
  rw [← lt_div_iff₀ hpow, ← div_lt_iff₀ hpow] at hodd
  split
  · have hvalue : (num : ℚ) / (den <<< unit.toNat : ℕ) = num / den / 2 ^ unit := by
      have : (-unit).toNat = 0 := by omega
      rw [hpow', this, Nat.shiftLeft_eq]
      push_cast
      field_simp
    rw [← hvalue] at hlow hhigh hodd
    exact roundQuotient_eq (by rw [Nat.shiftLeft_eq]; positivity) hlow hhigh hodd
  · have hvalue : ((num <<< (-unit).toNat : ℕ) : ℚ) / den = num / den / 2 ^ unit := by
      have : unit.toNat = 0 := by omega
      rw [hpow', this, Nat.shiftLeft_eq]
      push_cast
      field_simp
    rw [← hvalue] at hlow hhigh hodd
    exact roundQuotient_eq hden hlow hhigh hodd

section InInterval

variable {x : Binary64} {num den : ℕ}

/-- The rounding ends at the double once the rounded quotient completes the double's word. -/
theorem ofRatio_eq_of_rounded (hfinite : x.isFinite = true) (hnum : 0 < num) {unit : ℤ}
    (hunit : max (binade num den - 52) (-1074) = unit) {n : ℕ}
    (hrounded : (if 0 ≤ unit then roundQuotient num (den <<< unit.toNat)
      else roundQuotient (num <<< (-unit).toNat) den) = n)
    (hword : (unit + 1074).toNat * hiddenBit + n = x.magnitudeWord) :
    ofRatio x.isNegative num den = x := by
  have hle : x.magnitudeWord ≤ infinityWord := by
    simp only [isFinite, decide_eq_true_eq] at hfinite
    exact hfinite.le
  rw [ofRatio, if_neg hnum.ne']
  simp only [hunit, hrounded, hword]
  rw [min_eq_left hle, ofMagnitudeWord_magnitudeWord]

/-- The quotient is not rounded in a larger unit than the double's. -/
theorem binade_le_exponent (hnum : 0 < num) (hden : 0 < den) (h : x.InInterval (num / den)) :
    binade num den ≤ x.exponent + 52 := by
  have hunit : (0 : ℚ) < 2 ^ x.exponent := by positivity
  have hhigh := h.2.1
  rw [upperEnd_toRat] at hhigh
  have hlt : (2 : ℚ) ^ binade num den < 2 ^ (x.exponent + 53) := by
    have hm : (x.significand : ℚ) + 1 ≤ 2 ^ 53 := by exact_mod_cast significand_lt x
    calc (2 : ℚ) ^ binade num den ≤ num / den := (binade_spec hnum hden).1
      _ ≤ (x.significand + 1 / 2) * 2 ^ x.exponent := hhigh
      _ < 2 ^ 53 * 2 ^ x.exponent := by nlinarith
      _ = 2 ^ (x.exponent + 53) := by
          rw [zpow_add₀ (by norm_num), mul_comm]
          norm_num
  have := (zpow_lt_zpow_iff_right₀ (by norm_num : (1 : ℚ) < 2)).1 hlt
  omega

/-- Only a power of two has quotients of a lower binade in its interval. -/
theorem significand_eq_hiddenBit (hpos : 0 < x.significand) (hexponent : -1074 < x.exponent)
    (h : x.InInterval (num / den)) (hbelow : (num : ℚ) / den < 2 ^ 52 * 2 ^ x.exponent) :
    x.significand = hiddenBit := by
  have hhidden : hiddenBit = 0x10000000000000 := rfl
  have hunit : (0 : ℚ) < 2 ^ x.exponent := by positivity
  have hnormal := hiddenBit_le_significand hexponent
  by_contra hne
  have hlarge : (2 : ℚ) ^ 52 + 1 ≤ x.significand := by
    have : hiddenBit + 1 ≤ x.significand := by omega
    exact_mod_cast this
  have := (le_lowerEnd hpos).trans h.1
  nlinarith

/-- The interval of a power of two ends one binade below it. -/
theorem exponent_le_binade (hpower : x.significand = hiddenBit) (hexponent : -1074 < x.exponent)
    (hnum : 0 < num) (hden : 0 < den) (h : x.InInterval (num / den)) :
    x.exponent + 51 ≤ binade num den := by
  have hlow := h.1
  rw [lowerEnd_toRat_of_power hpower hexponent, hiddenBit_cast] at hlow
  have hlt : (2 : ℚ) ^ (x.exponent + 51) < 2 ^ (binade num den + 1) := by
    calc (2 : ℚ) ^ (x.exponent + 51) = 2 ^ 51 * 2 ^ x.exponent := by
          rw [zpow_add₀ (by norm_num), mul_comm]
          norm_num
      _ ≤ (2 ^ 52 - 1 / 4) * 2 ^ x.exponent := by
          gcongr
          norm_num
      _ ≤ num / den := hlow
      _ < 2 ^ (binade num den + 1) := (binade_spec hnum hden).2
  have := (zpow_lt_zpow_iff_right₀ (by norm_num : (1 : ℚ) < 2)).1 hlt
  omega

/-- A quotient of the double's own binade is rounded in the unit of the double. -/
theorem ofRatio_eq_of_unit (hfinite : x.isFinite = true) (hpos : 0 < x.significand)
    (hnum : 0 < num) (hden : 0 < den) (h : x.InInterval (num / den))
    (hunit : max (binade num den - 52) (-1074) = x.exponent) :
    ofRatio x.isNegative num den = x := by
  obtain ⟨hlow, hhigh, hodd⟩ := h
  rw [upperEnd_toRat] at hhigh hodd
  refine ofRatio_eq_of_rounded hfinite hnum hunit
    (roundScaled_eq hden ((le_lowerEnd hpos).trans hlow) hhigh ?_) (magnitudeWord_eq x)
  intro h
  exact ⟨(le_lowerEnd hpos).trans_lt (hodd h).1, (hodd h).2⟩

/-- A quotient of the binade below is rounded up to the power of two above it. -/
theorem ofRatio_eq_of_power (hfinite : x.isFinite = true) (hpower : x.significand = hiddenBit)
    (hexponent : -1074 < x.exponent) (hnum : 0 < num) (hden : 0 < den)
    (h : x.InInterval (num / den)) (hbelow : (num : ℚ) / den < 2 ^ 52 * 2 ^ x.exponent)
    (hunit : max (binade num den - 52) (-1074) = x.exponent - 1) :
    ofRatio x.isNegative num den = x := by
  have hlow := h.1
  rw [lowerEnd_toRat_of_power hpower hexponent, hiddenBit_cast] at hlow
  have hhalf : (2 : ℚ) ^ x.exponent = 2 * 2 ^ (x.exponent - 1) := by
    rw [zpow_sub_one₀ (by norm_num)]
    ring
  rw [hhalf] at hlow hbelow
  have hpos : (0 : ℚ) < 2 ^ (x.exponent - 1) := by positivity
  refine ofRatio_eq_of_rounded (n := 2 * hiddenBit) hfinite hnum hunit
    (roundScaled_eq hden ?_ ?_ ?_) ?_
  · push_cast
    rw [hiddenBit_cast]
    linarith
  · push_cast
    rw [hiddenBit_cast]
    linarith
  · intro hodd
    omega
  · have hsum := magnitudeWord_eq x
    have hsucc : (x.exponent + 1074).toNat = (x.exponent - 1 + 1074).toNat + 1 := by omega
    rw [hpower, hsucc, Nat.add_mul] at hsum
    omega

/-- What lies in the interval of a double is rounded to the double. -/
theorem ofRatio_eq (hfinite : x.isFinite = true) (hzero : x.isZero = false) (hnum : 0 < num)
    (hden : 0 < den) (h : x.InInterval (num / den)) : ofRatio x.isNegative num den = x := by
  have hpos := significand_pos hzero
  have hle := binade_le_exponent hnum hden h
  have hge := exponent_ge x
  by_cases hunit : max (binade num den - 52) (-1074) = x.exponent
  · exact ofRatio_eq_of_unit hfinite hpos hnum hden h hunit
  · -- The quotient lies below a power of two, in the binade of the next smaller unit.
    have hexponent : -1074 < x.exponent := by omega
    have hbelow : (num : ℚ) / den < 2 ^ 52 * 2 ^ x.exponent := by
      calc (num : ℚ) / den < 2 ^ (binade num den + 1) := (binade_spec hnum hden).2
        _ ≤ 2 ^ (x.exponent + 52) := zpow_le_zpow_right₀ (by norm_num) (by omega)
        _ = 2 ^ 52 * 2 ^ x.exponent := by
            rw [zpow_add₀ (by norm_num), mul_comm]
            norm_num
    have hpower := significand_eq_hiddenBit hpos hexponent h hbelow
    have hbinade := exponent_le_binade hpower hexponent hnum hden h
    exact ofRatio_eq_of_power hfinite hpower hexponent hnum hden h hbelow (by omega)

end InInterval

end DocPath.Binary64

import DocPath.Proofs.Binary64.Rounding
import DocPath.Decimal

/-!
# Shortest decimals lie in the interval

The decimal that is found for a double lies in its interval: every point that is accepted does, and
one of the grids has such a point. For that the first digit of the double need not be found exactly.
It must not be placed too high; then the points with seventeen digits lie closer together than the
ends of the interval.
-/

namespace DocPath.Binary64

/-! ## Points of a grid -/

theorem lowerEnd_den_pos (x : Binary64) : 0 < x.lowerEnd.den := by
  rw [lowerEnd]
  split
  · exact Ratio.ofScaled_den_pos _ _
  · exact Ratio.ofScaled_den_pos _ _

theorem upperEnd_den_pos (x : Binary64) : 0 < x.upperEnd.den := Ratio.ofScaled_den_pos _ _

theorem point_eq_div (d : ℕ) (s : ℤ) :
    (d : ℚ) * 10 ^ s = ((d * Nat.pow 10 s.toNat : ℕ) : ℚ) / (Nat.pow 10 (-s).toNat : ℕ) := by
  have hpow := zpow_eq_div (b := 10) (by decide) s
  push_cast at hpow
  rw [hpow]
  simp only [Nat.pow_eq]
  push_cast
  ring

/-- A point is accepted exactly if it lies in the interval. -/
theorem covers_iff (x : Binary64) (d : ℕ) (s : ℤ) :
    x.covers d s = true ↔ x.InInterval (d * 10 ^ s) := by
  have hlow := lowerEnd_den_pos x
  have hhigh := upperEnd_den_pos x
  have hden : 0 < Nat.pow 10 (-s).toNat := Nat.pow_pos (by decide)
  rw [covers, InInterval, point_eq_div, Ratio.toRat, Ratio.toRat,
    div_le_div_iff_cross hlow hden, div_le_div_iff_cross hden hhigh,
    div_lt_div_iff_cross hlow hden, div_lt_div_iff_cross hden hhigh]
  split
  · rename_i heven
    simp only [Bool.and_eq_true, decide_eq_true_eq]
    constructor
    · rintro ⟨hl, hh⟩
      exact ⟨hl, hh, fun hodd => by omega⟩
    · rintro ⟨hl, hh, -⟩
      exact ⟨hl, hh⟩
  · rename_i heven
    simp only [Bool.and_eq_true, decide_eq_true_eq]
    constructor
    · rintro ⟨hl, hh⟩
      exact ⟨hl.le, hh.le, fun _ => ⟨hl, hh⟩⟩
    · rintro ⟨-, -, hstrict⟩
      exact hstrict (by omega)

/-- The point of a grid below a double. -/
def pointBelow (x : Binary64) (s : ℤ) : ℕ :=
  (Ratio.ofScaled x.significand x.exponent).num * Nat.pow 10 (-s).toNat /
    ((Ratio.ofScaled x.significand x.exponent).den * Nat.pow 10 s.toNat)

/-- A point that is given is accepted, and none is given only if both around the double are not. -/
theorem pointAt?_cases (tie : Tie) (x : Binary64) (s : ℤ) :
    (x.pointAt? tie s = none ∧ x.covers (x.pointBelow s) s = false ∧
      x.covers (x.pointBelow s + 1) s = false) ∨
    ∃ d, x.pointAt? tie s = some d ∧ x.covers d s = true := by
  unfold pointAt?
  dsimp only
  rw [← pointBelow]
  split
  · rename_i hlow hhigh
    exact .inl ⟨rfl, hlow, hhigh⟩
  · rename_i hlow _
    exact .inr ⟨_, rfl, hlow⟩
  · rename_i _ hhigh
    exact .inr ⟨_, rfl, hhigh⟩
  · rename_i hlow hhigh
    refine .inr ?_
    split
    · exact ⟨_, rfl, hlow⟩
    · split
      · exact ⟨_, rfl, hhigh⟩
      · cases tie with
        | up => exact ⟨_, rfl, hhigh⟩
        | toEven =>
            refine ⟨_, rfl, ?_⟩
            split
            · exact hlow
            · exact hhigh

/-- The magnitude of a finite double. -/
def magnitude (x : Binary64) : ℚ := x.significand * 2 ^ x.exponent

/-- The ends of the interval are farther apart than the last of seventeen digits counts. -/
theorem lt_width {x : Binary64} (hpos : 0 < x.significand) :
    x.magnitude / 10 ^ 16 < x.upperEnd.toRat - x.lowerEnd.toRat := by
  have hunit : (0 : ℚ) < 2 ^ x.exponent := by positivity
  rw [magnitude, upperEnd_toRat]
  by_cases h : x.significand = hiddenBit ∧ -1074 < x.exponent
  · have hcast : ((hiddenBit : ℕ) : ℚ) = 2 ^ 52 := by norm_num [hiddenBit]
    rw [lowerEnd_toRat_of_power h.1 h.2, h.1, hcast]
    nlinarith
  · have hm : (x.significand : ℚ) ≤ 2 ^ 53 := by exact_mod_cast (significand_lt x).le
    rw [lowerEnd_toRat hpos h]
    nlinarith

theorem lowerEnd_lt_magnitude {x : Binary64} (hpos : 0 < x.significand) :
    x.lowerEnd.toRat < x.magnitude := by
  have hunit : (0 : ℚ) < 2 ^ x.exponent := by positivity
  rw [magnitude]
  by_cases h : x.significand = hiddenBit ∧ -1074 < x.exponent
  · rw [lowerEnd_toRat_of_power h.1 h.2, h.1]
    nlinarith
  · rw [lowerEnd_toRat hpos h]
    nlinarith

theorem magnitude_lt_upperEnd (x : Binary64) : x.magnitude < x.upperEnd.toRat := by
  have hunit : (0 : ℚ) < 2 ^ x.exponent := by positivity
  rw [magnitude, upperEnd_toRat]
  nlinarith

theorem toRat_magnitude (x : Binary64) :
    (Ratio.ofScaled x.significand x.exponent).toRat = x.magnitude :=
  Ratio.toRat_ofScaled _ _

/-- The double lies between two points of each grid. -/
theorem pointBelow_spec (x : Binary64) (s : ℤ) :
    (x.pointBelow s : ℚ) * 10 ^ s ≤ x.magnitude ∧
      x.magnitude < ((x.pointBelow s + 1 : ℕ) : ℚ) * 10 ^ s := by
  obtain ⟨r, hr⟩ : ∃ r, Ratio.ofScaled x.significand x.exponent = r := ⟨_, rfl⟩
  have hrden : 0 < r.den := hr ▸ Ratio.ofScaled_den_pos _ _
  have hpow : 0 < Nat.pow 10 (-s).toNat := Nat.pow_pos (by decide)
  have hpow' : 0 < Nat.pow 10 s.toNat := Nat.pow_pos (by decide)
  rw [← toRat_magnitude, pointBelow, hr, point_eq_div, point_eq_div, Ratio.toRat,
    div_le_div_iff_cross hpow hrden, div_lt_div_iff_cross hrden hpow]
  generalize Nat.pow 10 (-s).toNat = a at *
  generalize Nat.pow 10 s.toNat = b at *
  have hden : 0 < r.den * b := Nat.mul_pos hrden hpow'
  have hsplit := Nat.div_add_mod (r.num * a) (r.den * b)
  have hrest := Nat.mod_lt (r.num * a) hden
  generalize r.num * a / (r.den * b) = d at *
  constructor
  · have hproduct : d * b * r.den = r.den * b * d := by ring
    omega
  · have hproduct : (d + 1) * b * r.den = r.den * b * d + r.den * b := by ring
    omega

/-- On a grid that is fine enough one of the two points around the double lies in its interval. -/
theorem exists_pointAt? (tie : Tie) {x : Binary64} (hpos : 0 < x.significand) {s : ℤ}
    (hgrid : (10 : ℚ) ^ s ≤ x.magnitude / 10 ^ 16) :
    ∃ d, x.pointAt? tie s = some d ∧ x.covers d s = true := by
  rcases pointAt?_cases tie x s with ⟨-, hlow, hhigh⟩ | hsome
  · exfalso
    have hwidth := lt_width hpos
    have hbelow := lowerEnd_lt_magnitude hpos
    have habove := magnitude_lt_upperEnd x
    obtain ⟨hpoint, hpoint'⟩ := pointBelow_spec x s
    rw [← Bool.not_eq_true, covers_iff] at hlow hhigh
    have hlow' : (x.pointBelow s : ℚ) * 10 ^ s ≤ x.lowerEnd.toRat := by
      by_contra hlt
      rw [not_le] at hlt
      exact hlow ⟨hlt.le, (hpoint.trans_lt habove).le, fun _ => ⟨hlt, hpoint.trans_lt habove⟩⟩
    have hhigh' : x.upperEnd.toRat ≤ ((x.pointBelow s + 1 : ℕ) : ℚ) * 10 ^ s := by
      by_contra hlt
      rw [not_le] at hlt
      exact hhigh ⟨(hbelow.trans hpoint').le, hlt.le, fun _ => ⟨hbelow.trans hpoint', hlt⟩⟩
    push_cast at hhigh'
    linarith
  · exact hsome

/-! ## The place of the first digit -/

section

variable {r : Ratio} (hden : 0 < r.den)
include hden

theorem Ratio.lt_pow_iff (k : ℤ) :
    r.num * Nat.pow 10 (-k).toNat < r.den * Nat.pow 10 k.toNat ↔ r.toRat < 10 ^ k := by
  have hpow := point_eq_div 1 k
  have hpos : 0 < Nat.pow 10 (-k).toNat := Nat.pow_pos (by decide)
  rw [Nat.cast_one, one_mul, one_mul] at hpow
  rw [hpow, toRat, div_lt_div_iff_cross hden hpos, Nat.mul_comm (Nat.pow 10 k.toNat)]

theorem Ratio.pow_le_iff (k : ℤ) :
    r.den * Nat.pow 10 k.toNat ≤ r.num * Nat.pow 10 (-k).toNat ↔ 10 ^ k ≤ r.toRat := by
  rw [← not_lt, Ratio.lt_pow_iff hden, not_lt]

/-- The place of the first digit is not too high if the estimate is not too far off. -/
theorem Ratio.pow_decadeFrom_le {k : ℤ} {tries : ℕ} (h : (10 : ℚ) ^ (k - tries) ≤ r.toRat) :
    (10 : ℚ) ^ r.decadeFrom k tries ≤ r.toRat := by
  induction tries generalizing k with
  | zero => simpa [decadeFrom] using h
  | succ tries ih =>
      rw [decadeFrom]
      simp only [Ratio.lt_pow_iff hden, Ratio.pow_le_iff hden]
      split
      · apply ih
        convert h using 2
        push_cast
        ring
      · rename_i hreached
        split
        · rename_i hmore
          apply ih
          refine le_trans (zpow_le_zpow_right₀ (by norm_num) ?_) hmore
          omega
        · exact not_lt.1 hreached

end

/-- The estimate of the place of the first digit, four places down, is not too high. -/
theorem pow_estimate_le {l : ℤ} (hlow : -1100 ≤ l) (hhigh : l ≤ 1100) :
    (10 : ℚ) ^ (l * 30103 / 100000 - 4) ≤ 2 ^ (l - 1) := by
  -- The bounds take in all exponents of doubles, so the powers can be compared one by one.
  have hnonneg : ∀ n < 1101, 2 * Nat.pow 10 (n * 30103 / 100000) ≤
      Nat.pow 10 4 * Nat.pow 2 n := by decide +kernel
  have hnegative : ∀ n < 1101, Nat.pow 2 (n + 1) ≤
      Nat.pow 10 ((n * 30103 + 99999) / 100000 + 4) := by decide +kernel
  rcases le_or_gt 0 l with hl | hl
  · obtain ⟨n, rfl⟩ := Int.eq_ofNat_of_zero_le hl
    have hn := hnonneg n (by omega)
    have hn' : (2 : ℚ) * 10 ^ (n * 30103 / 100000) ≤ 10 ^ 4 * 2 ^ n := by exact_mod_cast hn
    have he : ((n : ℤ) * 30103 / 100000 - 4) = ((n * 30103 / 100000 : ℕ) : ℤ) - 4 := by omega
    rw [he, zpow_sub₀ (by norm_num), zpow_sub_one₀ (by norm_num), zpow_natCast, zpow_natCast,
      div_le_iff₀ (by positivity)]
    norm_num at hn' ⊢
    linarith
  · obtain ⟨n, hn⟩ := Int.eq_ofNat_of_zero_le (by omega : 0 ≤ -l)
    obtain rfl : l = -(n : ℤ) := by omega
    have hn' := hnegative n (by omega)
    have hn'' : (2 : ℚ) ^ (n + 1) ≤ 10 ^ ((n * 30103 + 99999) / 100000 + 4) := by
      exact_mod_cast hn'
    have he : (-(n : ℤ) * 30103 / 100000 - 4) =
        -(((n * 30103 + 99999) / 100000 + 4 : ℕ) : ℤ) := by omega
    have he' : -(n : ℤ) - 1 = -((n + 1 : ℕ) : ℤ) := by omega
    rw [he, he', zpow_neg, zpow_neg, zpow_natCast, zpow_natCast]
    exact inv_anti₀ (by positivity) hn''

theorem log2_scaled_bounds {x : Binary64} (hfinite : x.isFinite = true)
    (hpos : 0 < x.significand) :
    -1100 ≤ ((Ratio.ofScaled x.significand x.exponent).num.log2 : ℤ) -
        (Ratio.ofScaled x.significand x.exponent).den.log2 ∧
      ((Ratio.ofScaled x.significand x.exponent).num.log2 : ℤ) -
        (Ratio.ofScaled x.significand x.exponent).den.log2 ≤ 1100 := by
  have hge := exponent_ge x
  have hle := exponent_le hfinite
  have hden : (Ratio.ofScaled x.significand x.exponent).den.log2 = (-x.exponent).toNat := by
    rw [Ratio.ofScaled, Nat.one_shiftLeft, Nat.log2_two_pow]
  have hnum : (Ratio.ofScaled x.significand x.exponent).num.log2 < 53 + x.exponent.toNat := by
    have hnonzero := (Ratio.ofScaled_num_pos hpos x.exponent).ne'
    rw [Nat.log2_lt hnonzero, Ratio.ofScaled, Nat.shiftLeft_eq, Nat.pow_add]
    exact Nat.mul_lt_mul_of_pos_right (significand_lt x) (by positivity)
  omega

/-- The first digit of a double is not placed too high. -/
theorem pow_decade_le {x : Binary64} (hfinite : x.isFinite = true) (hpos : 0 < x.significand) :
    (10 : ℚ) ^ (Ratio.ofScaled x.significand x.exponent).decade ≤ x.magnitude := by
  obtain ⟨hlow, hhigh⟩ := log2_scaled_bounds hfinite hpos
  have hestimate := pow_estimate_le hlow hhigh
  rw [← toRat_magnitude]
  have hnum := Ratio.ofScaled_num_pos hpos x.exponent
  have hden := Ratio.ofScaled_den_pos x.significand x.exponent
  exact Ratio.pow_decadeFrom_le hden (hestimate.trans (pow_log2_le_div hnum hden))

/-! ## The shortest decimal -/

/-- The search ends at the latest on a grid that has a point in the interval. -/
theorem exists_shortestFrom {tie : Tie} {x : Binary64} {decade : ℤ} {count more i : ℕ}
    (hi : i < more) (h : ∃ d, x.pointAt? tie (decade - (count + i : ℕ) + 1) = some d) :
    ∃ d s, shortestFrom tie x decade count more = Scientific.ofPoint d s ∧
      x.InInterval (d * 10 ^ s) := by
  induction more generalizing count i with
  | zero => omega
  | succ more ih =>
      rw [shortestFrom]
      rcases pointAt?_cases tie x (decade - count + 1) with ⟨hnone, -, -⟩ | ⟨d, hsome, hcovers⟩
      · obtain ⟨d, hd⟩ := h
        rw [hnone]
        cases i with
        | zero =>
            rw [Nat.add_zero, hnone] at hd
            cases hd
        | succ i =>
            have hnext : count + (i + 1) = count + 1 + i := by omega
            rw [hnext] at hd
            exact ih (Nat.lt_of_succ_lt_succ hi) ⟨d, hd⟩
      · rw [hsome]
        exact ⟨d, _, rfl, (covers_iff x d _).1 hcovers⟩

/-- The shortest decimal of a double is a point in its interval. -/
theorem exists_shortest (tie : Tie) {x : Binary64} (hfinite : x.isFinite = true)
    (hzero : x.isZero = false) :
    ∃ d s, x.shortest tie = Scientific.ofPoint d s ∧ x.InInterval (d * 10 ^ s) := by
  have hpos := significand_pos hzero
  have hdecade := pow_decade_le hfinite hpos
  rw [shortest]
  obtain ⟨decade, hdef⟩ : ∃ k, (Ratio.ofScaled x.significand x.exponent).decade = k := ⟨_, rfl⟩
  rw [hdef] at hdecade ⊢
  have hgrid : (10 : ℚ) ^ (decade - (1 + 16 : ℕ) + 1) ≤ x.magnitude / 10 ^ 16 := by
    have hexponent : decade - ((1 + 16 : ℕ) : ℤ) + 1 = decade - (16 : ℕ) := by omega
    rw [hexponent, zpow_sub₀ (by norm_num), zpow_natCast]
    gcongr
  obtain ⟨d, hd, -⟩ := exists_pointAt? tie hpos hgrid
  exact exists_shortestFrom (by decide) ⟨d, hd⟩

end DocPath.Binary64

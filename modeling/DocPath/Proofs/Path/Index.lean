import DocPath.Path.Basic

/-!
# Segments with the same text

A run of digits is canonical exactly if it is the decimal text of its value. So a segment has an
index exactly if its text is that of the index, and segments with the same text have the same
index.
-/

namespace DocPath

theorem digitChar_of_isDigit {c : Char} (hc : c.isDigit = true) :
    Nat.digitChar (c.toNat - 48) = c ∧ c.toNat - 48 < 10 := by
  have hbounds : 48 ≤ c.toNat ∧ c.toNat ≤ 57 := Char.isDigit_iff_toNat.1 hc
  have hsmall : c.toNat - 48 < 10 := by omega
  refine ⟨?_, hsmall⟩
  apply Char.toNat_inj.1
  rw [Nat.toNat_digitChar_of_lt_ten hsmall]
  omega

/-- Digits behind the text of a positive number extend it to the text of a number. -/
theorem toDigits_append_digits {n : Nat} (hn : 0 < n) {cs : List Char}
    (hcs : ∀ c ∈ cs, c.isDigit = true) :
    Nat.toDigits 10 n ++ cs = Nat.toDigits 10 (Nat.ofDigitChars 10 cs n) := by
  induction cs generalizing n with
  | nil => simp
  | cons c cs ih =>
      obtain ⟨hchar, hsmall⟩ := digitChar_of_isDigit (hcs c List.mem_cons_self)
      have hstep : Nat.toDigits 10 n ++ [c] = Nat.toDigits 10 (10 * n + (c.toNat - 48)) := by
        rw [← Nat.toDigits_append_toDigits (by decide) hn hsmall,
          Nat.toDigits_of_lt_base hsmall, hchar]
      calc
        Nat.toDigits 10 n ++ c :: cs = (Nat.toDigits 10 n ++ [c]) ++ cs := by simp
        _ = Nat.toDigits 10 (10 * n + (c.toNat - 48)) ++ cs := by rw [hstep]
        _ = Nat.toDigits 10 (Nat.ofDigitChars 10 (c :: cs) n) := by
          rw [ih (by omega) fun d hd => hcs d (List.mem_cons_of_mem c hd)]
          rfl

namespace Segment

theorem isCanonicalIndex_cons {c : Char} {cs : List Char} :
    isCanonicalIndex (c :: cs) = true ↔
      (∀ d ∈ c :: cs, d.isDigit = true) ∧ (c = '0' → cs = []) := by
  by_cases hc : c = '0'
  · simp [isCanonicalIndex, hc]
  · simp [isCanonicalIndex, hc]

theorem toDigits_decimalValue {cs : List Char} (h : isCanonicalIndex cs = true) :
    Nat.toDigits 10 (decimalValue cs) = cs := by
  cases cs with
  | nil => contradiction
  | cons c cs =>
      obtain ⟨hdigits, hzero⟩ := isCanonicalIndex_cons.1 h
      by_cases hc : c = '0'
      · obtain rfl := hc
        obtain rfl := hzero rfl
        rfl
      · obtain ⟨hchar, hsmall⟩ := digitChar_of_isDigit (hdigits c List.mem_cons_self)
        have hpos : 0 < c.toNat - 48 := by
          refine Nat.pos_of_ne_zero fun hvalue => hc ?_
          rw [← hchar, hvalue]
          rfl
        have hcs : ∀ d ∈ cs, d.isDigit = true :=
          fun d hd => hdigits d (List.mem_cons_of_mem c hd)
        have happend := toDigits_append_digits hpos hcs
        rw [Nat.toDigits_of_lt_base hsmall, hchar] at happend
        rw [decimalValue, Nat.ofDigitChars_cons]
        simpa using happend.symm

theorem head?_toDigits_ne_zero {n : Nat} (hn : 0 < n) :
    (Nat.toDigits 10 n).head? ≠ some '0' := by
  induction n using Nat.strongRecOn with
  | ind n ih =>
      by_cases hsmall : n < 10
      · rw [Nat.toDigits_of_lt_base hsmall]
        simp
        omega
      · have hhead := ih (n / 10) (by omega) (by omega)
        rw [Nat.toDigits_of_base_le (by decide) (by omega), List.head?_append]
        cases h : (Nat.toDigits 10 (n / 10)).head? with
        | none => exact absurd (List.head?_eq_none_iff.1 h) Nat.toDigits_ne_nil
        | some d => rwa [h] at hhead

theorem isCanonicalIndex_toDigits (n : Nat) : isCanonicalIndex (Nat.toDigits 10 n) = true := by
  have hdigits : ∀ d ∈ Nat.toDigits 10 n, d.isDigit = true :=
    fun d hd => Nat.isDigit_of_mem_toDigits (by decide) (by decide) hd
  rcases Nat.eq_zero_or_pos n with rfl | hn
  · rfl
  · have hhead := head?_toDigits_ne_zero hn
    simp only [isCanonicalIndex, Bool.and_eq_true, List.all_eq_true]
    refine ⟨⟨?_, hdigits⟩, ?_⟩
    · simp [Nat.toDigits_ne_nil]
    · simp [hhead]

/-- A segment has an index exactly if its text is the decimal text of that index. -/
theorem index?_eq_some_iff {s : Segment} {i : UInt64} :
    s.index? = some i ↔ s.text = decimal i.toNat := by
  cases s with
  | index j =>
      constructor
      · intro h
        cases h
        rfl
      · intro h
        exact congrArg some (UInt64.toNat_inj.1 (decimal_inj h))
  | key name =>
      simp only [index?, text]
      constructor
      · intro h
        split at h
        · rename_i hname
          cases h
          obtain ⟨hcanonical, hsmall⟩ : isCanonicalIndex name.toList = true ∧
              decimalValue name.toList < UInt64.size := by simpa using hname
          rw [UInt64.toNat_ofNat_of_lt' hsmall, decimal, toDigits_decimalValue hcanonical,
            String.ofList_toList]
        · contradiction
      · rintro rfl
        have hcanonical : isCanonicalIndex (decimal i.toNat).toList = true := by
          rw [decimal, String.toList_ofList]
          exact isCanonicalIndex_toDigits i.toNat
        have hsmall : i.toNat < UInt64.size := i.toNat_lt
        rw [decimalValue_decimal, hcanonical]
        simp [hsmall]

theorem index?_congr {s t : Segment} (h : s.text = t.text) : s.index? = t.index? := by
  ext i
  rw [index?_eq_some_iff, index?_eq_some_iff, h]

/-! ## Keys that are indices -/

/-- Digits are canonical unless there are none or a needless zero stands in front. -/
theorem not_isCanonicalIndex_iff {cs : List Char} :
    ¬isCanonicalIndex cs = true ↔
      cs = [] ∨ (∃ c ∈ cs, c.isDigit = false) ∨ ∃ c rest, cs = '0' :: c :: rest := by
  cases cs with
  | nil => simp [isCanonicalIndex]
  | cons c cs =>
      have hdigits : ¬(∀ d ∈ c :: cs, d.isDigit = true) ↔ ∃ d ∈ c :: cs, d.isDigit = false := by
        simp only [Classical.not_forall, exists_prop, Bool.not_eq_true]
      rw [isCanonicalIndex_cons, Decidable.not_and_iff_or_not, hdigits]
      cases cs with
      | nil => simp
      | cons d rest => simp

/-- A key has an index exactly if it is the text of that index. It has none if it is empty, holds
anything but digits, has a needless zero in front or stands for too large a number. -/
theorem index?_key (name : String) :
    (∀ i, (key name).index? = some i ↔ name = (index i).text) ∧
      ((key name).index? = none ↔
        name.toList = [] ∨ (∃ c ∈ name.toList, c.isDigit = false) ∨
          (∃ c rest, name.toList = '0' :: c :: rest) ∨
          UInt64.size ≤ decimalValue name.toList) := by
  refine ⟨fun i => index?_eq_some_iff, ?_⟩
  have hnone : (key name).index? = none ↔
      ¬(isCanonicalIndex name.toList = true ∧ decimalValue name.toList < UInt64.size) := by
    simp [index?]
  rw [hnone, Decidable.not_and_iff_or_not, not_isCanonicalIndex_iff, Nat.not_lt, or_assoc,
    or_assoc]

end Segment

end DocPath

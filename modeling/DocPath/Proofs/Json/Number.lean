import Mathlib.Tactic.ByContra
import DocPath.Json.Token
import DocPath.Json.Writer
import DocPath.Proofs.Path.Index
import DocPath.Proofs.Run

/-!
# Numbers read back

A whole number is written with the digits of its magnitude, and reads back as the narrowest number
with that value. The text of a number that reads back is a token of its own wherever no character
of a number follows.
-/

namespace DocPath

/-! ## The characters of numbers -/

theorem isDigit_toDigits (n : Nat) : ∀ d ∈ Nat.toDigits 10 n, d.isDigit = true :=
  fun _ hd => Nat.isDigit_of_mem_toDigits (by decide) (by decide) hd

namespace Numeral

theorem read?_toDigits (n : Nat) :
    read? (Nat.toDigits 10 n) = some ⟨Nat.toDigits 10 n, none, none⟩ := by
  obtain ⟨htake, hdrop⟩ := takeWhile_dropWhile_iff.2
    ⟨(List.append_nil (Nat.toDigits 10 n)).symm, isDigit_toDigits n, stops_nil⟩
  rw [read?, htake, hdrop]
  rfl

end Numeral

namespace Json

theorem isNumberChar_of_isDigit {c : Char} (h : c.isDigit = true) : isNumberChar c = true := by
  simp [isNumberChar, h]

theorem isNumberChar_of_isDigits {cs : List Char} (h : Numeral.isDigits cs = true) :
    ∀ c ∈ cs, isNumberChar c = true := by
  obtain ⟨-, hall⟩ := Bool.and_eq_true_iff.1 h
  exact fun c hc => isNumberChar_of_isDigit (List.all_eq_true.1 hall c hc)

theorem isNumberChar_of_readExponent? {cs : List Char} {e : Int}
    (h : Numeral.readExponent? cs = some e) : ∀ c ∈ cs, isNumberChar c = true := by
  unfold Numeral.readExponent? at h
  split at h
  · split at h
    · rename_i hdigits
      exact List.forall_mem_cons.2 ⟨rfl, isNumberChar_of_isDigits hdigits⟩
    · cases h
  · split at h
    · rename_i hdigits
      exact List.forall_mem_cons.2 ⟨rfl, isNumberChar_of_isDigits hdigits⟩
    · cases h
  · split at h
    · rename_i hdigits
      exact isNumberChar_of_isDigits hdigits
    · cases h

theorem isNumberChar_of_readEnd? {whole cs : List Char} {fraction : Option (List Char)}
    {m : Numeral} (h : Numeral.readEnd? whole fraction cs = some m) :
    m.whole = whole ∧ ∀ c ∈ cs, isNumberChar c = true := by
  cases cs with
  | nil =>
      cases h
      exact ⟨rfl, fun c hc => by cases hc⟩
  | cons c cs =>
      rw [Numeral.readEnd?] at h
      split at h
      · rename_i hmark
        obtain ⟨e, hexponent, heq⟩ := Option.map_eq_some_iff.1 h
        have hc : isNumberChar c = true := by
          rcases hmark with rfl | rfl <;> rfl
        exact ⟨heq ▸ rfl, List.forall_mem_cons.2 ⟨hc, isNumberChar_of_readExponent? hexponent⟩⟩
      · cases h

theorem isNumberChar_of_read? {cs : List Char} {m : Numeral} (h : Numeral.read? cs = some m) :
    m.whole = cs.takeWhile Char.isDigit ∧ ∀ c ∈ cs, isNumberChar c = true := by
  obtain ⟨hsplit, hdigits, -⟩ := takeWhile_dropWhile_iff.1
    ⟨(rfl : cs.takeWhile Char.isDigit = _), (rfl : cs.dropWhile Char.isDigit = _)⟩
  rw [Numeral.read?] at h
  have hbehind : m.whole = cs.takeWhile Char.isDigit ∧
      ∀ c ∈ cs.dropWhile Char.isDigit, isNumberChar c = true := by
    generalize cs.dropWhile Char.isDigit = rest at h ⊢
    split at h
    · rename_i fraction
      obtain ⟨hwhole, hend⟩ := isNumberChar_of_readEnd? h
      obtain ⟨hsplit', hdigits', -⟩ := takeWhile_dropWhile_iff.1
        ⟨(rfl : fraction.takeWhile Char.isDigit = _), (rfl : fraction.dropWhile Char.isDigit = _)⟩
      refine ⟨hwhole, List.forall_mem_cons.2 ⟨rfl, fun c hc => ?_⟩⟩
      rw [hsplit'] at hc
      rcases List.mem_append.1 hc with hdigit | hrest
      · exact isNumberChar_of_isDigit (hdigits' c hdigit)
      · exact hend c hrest
    · exact isNumberChar_of_readEnd? h
  refine ⟨hbehind.1, fun c hc => ?_⟩
  rw [hsplit] at hc
  rcases List.mem_append.1 hc with hdigit | hrest
  · exact isNumberChar_of_isDigit (hdigits c hdigit)
  · exact hbehind.2 c hrest

/-! ## Whole numbers -/

theorem isWholePart_toDigits (n : Nat) : isWholePart (Nat.toDigits 10 n) = true := by
  have hcanonical := Segment.isCanonicalIndex_toDigits n
  simp only [Segment.isCanonicalIndex, Bool.and_eq_true] at hcanonical
  rw [isWholePart, hcanonical.1.1, hcanonical.2]
  rfl

theorem head?_toDigits_ne_minus (n : Nat) : ((Nat.toDigits 10 n).head? == some '-') = false := by
  cases hdigits : Nat.toDigits 10 n with
  | nil => rfl
  | cons d ds =>
      have hd : d.isDigit = true := isDigit_toDigits n d (by rw [hdigits]; exact List.mem_cons_self)
      have hne : d ≠ '-' := by
        rintro rfl
        exact absurd hd (by decide)
      simpa using hne

variable [DoubleReader]

/-- The number of a whole numeral is that of its value, if that fits 64 bits. -/
theorem numberOf?_toDigits {negative : Bool} {m : Nat} {n : Number}
    (hsign : negative = true → 0 < m)
    (h : Number.ofInt? (if negative then -(m : Int) else m) = some n) :
    numberOf? negative ⟨Nat.toDigits 10 m, none, none⟩ = some n := by
  have hzero : (negative && ((m : Int) == 0)) = false := by
    cases negative with
    | false => rfl
    | true =>
        have hpositive := hsign rfl
        simp
        omega
  simp [numberOf?, Numeral.isWhole, decimalValue_toDigits, hzero, h]

/-- Reading the text of a number gives the number. -/
def ReadsBack (n : Number) : Prop := readNumber? (numberText n).toList = some n

theorem readNumber?_decimal {m : Nat} {n : Number} (h : Number.ofInt? m = some n) :
    readNumber? (decimal m).toList = some n := by
  have hnumber : numberOf? false ⟨Nat.toDigits 10 m, none, none⟩ = some n :=
    numberOf?_toDigits (fun hnegative => by cases hnegative) h
  simp only [readNumber?, decimal, String.toList_ofList, head?_toDigits_ne_minus,
    Bool.false_eq_true, if_false, Numeral.read?_toDigits, isWholePart_toDigits, hnumber]
  rfl

theorem readNumber?_minus_decimal {m : Nat} (hm : 0 < m) {n : Number}
    (h : Number.ofInt? (-(m : Int)) = some n) :
    readNumber? ('-' :: (decimal m).toList) = some n := by
  have hnumber : numberOf? true ⟨Nat.toDigits 10 m, none, none⟩ = some n :=
    numberOf?_toDigits (fun _ => hm) h
  have hhead : (('-' :: Nat.toDigits 10 m).head? == some '-') = true := rfl
  simp only [readNumber?, decimal, String.toList_ofList, hhead, if_true, List.drop_one,
    List.tail_cons, Numeral.read?_toDigits, isWholePart_toDigits, hnumber]
  rfl

theorem readsBack_int (i : Int64) : ReadsBack (.int i) := by
  have hlow : -0x8000000000000000 ≤ i.toInt := Int64.le_toInt i
  have hhigh : i.toInt < 0x8000000000000000 := Int64.toInt_lt i
  have hnumber : Number.ofInt? i.toInt = some (.int i) := by
    rw [Number.ofInt?, if_pos ⟨hlow, hhigh⟩, Int64.ofInt_toInt]
  rw [ReadsBack, numberText]
  split
  · rename_i hnegative
    have hvalue : -(i.toInt.natAbs : Int) = i.toInt := by omega
    rw [String.toList_append]
    exact readNumber?_minus_decimal (by omega) (by rw [hvalue, hnumber])
  · rename_i hpositive
    have hvalue : (i.toInt.natAbs : Int) = i.toInt := by omega
    exact readNumber?_decimal (by rw [hvalue, hnumber])

/-- A number without a sign reads back if it is too large to have one. -/
theorem readsBack_nat {n : UInt64} (h : 0x8000000000000000 ≤ n.toNat) : ReadsBack (.nat n) := by
  have hsize : n.toNat < UInt64.size := n.toNat_lt
  refine readNumber?_decimal ?_
  rw [Number.ofInt?, if_neg (by omega), if_pos (by omega), Int.toNat_natCast, UInt64.ofNat_toNat]

/-! ## Tokens -/

/-- A token is a mark, a text, a word or a number. -/
theorem readToken_cases {c : Char} {tail rest : List Char} {t : Token}
    (h : readToken c tail = some (t, rest)) :
    t = .mark c ∨ (∃ s, t = .text s) ∨ t = .scalar .null ∨ (∃ b, t = .scalar (.bool b)) ∨
      ∃ n, t = .scalar (.number n) ∧
        readNumber? (c :: tail.takeWhile isNumberChar) = some n := by
  unfold readToken at h
  split at h
  · cases h
    exact .inl rfl
  · split at h
    · obtain ⟨p, -, heq⟩ := Option.map_eq_some_iff.1 h
      cases heq
      exact .inr (.inl ⟨_, rfl⟩)
    · split at h
      · obtain ⟨r, -, heq⟩ := Option.map_eq_some_iff.1 h
        cases heq
        exact .inr (.inr (.inl rfl))
      · split at h
        · obtain ⟨r, -, heq⟩ := Option.map_eq_some_iff.1 h
          cases heq
          exact .inr (.inr (.inr (.inl ⟨true, rfl⟩)))
        · split at h
          · obtain ⟨r, -, heq⟩ := Option.map_eq_some_iff.1 h
            cases heq
            exact .inr (.inr (.inr (.inl ⟨false, rfl⟩)))
          · obtain ⟨n, hn, heq⟩ := Option.map_eq_some_iff.1 h
            cases heq
            exact .inr (.inr (.inr (.inr ⟨n, rfl, hn⟩)))

/-- The text of a number is made of the characters of numbers and starts with a sign or a digit. -/
theorem isNumberChar_of_readNumber? {cs : List Char} {n : Number}
    (h : readNumber? cs = some n) :
    (∀ c ∈ cs, isNumberChar c = true) ∧
      ∃ c tail, cs = c :: tail ∧ (c = '-' ∨ c.isDigit = true) := by
  simp only [readNumber?] at h
  split at h
  · cases h
  · rename_i m hread
    obtain ⟨hwhole, hall⟩ := isNumberChar_of_read? hread
    split at h
    · rename_i hparts
      have hnonempty : m.whole ≠ [] := by
        intro hnil
        simp [isWholePart, hnil] at hparts
      cases cs with
      | nil => exact (hnonempty hwhole).elim
      | cons c tail =>
          by_cases hminus : c = '-'
          · subst hminus
            exact ⟨List.forall_mem_cons.2 ⟨rfl, hall⟩, '-', tail, rfl, .inl rfl⟩
          · have hhead : (some c == some '-') = false := by simpa using hminus
            simp only [List.head?_cons, hhead, Bool.false_eq_true, if_false] at hwhole hall
            refine ⟨hall, c, tail, rfl, .inr ?_⟩
            by_contra hdigit
            rw [List.takeWhile_cons_of_neg hdigit] at hwhole
            exact hnonempty hwhole
    · cases h

/-- What a number starts with starts no other token. -/
theorem readToken_start {c : Char} (h : c = '-' ∨ c.isDigit = true) (tail : List Char) :
    readToken c tail = (readNumber? (c :: tail.takeWhile isNumberChar)).map fun n =>
      (.scalar (.number n), tail.dropWhile isNumberChar) := by
  have hother : ∀ d : Char, d ≠ '-' → d.isDigit = false → c ≠ d := by
    rintro d hminus hdigit rfl
    rcases h with rfl | hc
    · exact hminus rfl
    · rw [hdigit] at hc
      cases hc
  have hmark : isMark c = false := by
    simp [isMark, hother '{' (by decide) (by decide), hother '}' (by decide) (by decide),
      hother '[' (by decide) (by decide), hother ']' (by decide) (by decide),
      hother ',' (by decide) (by decide), hother ':' (by decide) (by decide)]
  rw [readToken, hmark, if_neg Bool.false_ne_true, if_neg (hother '"' (by decide) (by decide)),
    if_neg (hother 'n' (by decide) (by decide)), if_neg (hother 't' (by decide) (by decide)),
    if_neg (hother 'f' (by decide) (by decide))]

/-- The text of a number is a token wherever no character of a number follows. -/
theorem readToken_number {cs : List Char} {n : Number} (h : readNumber? cs = some n)
    {rest : List Char} (hrest : Stops isNumberChar rest) :
    ∃ c tail, cs = c :: tail ∧ (c = '-' ∨ c.isDigit = true) ∧
      readToken c (tail ++ rest) = some (.scalar (.number n), rest) := by
  obtain ⟨hall, c, tail, rfl, hstart⟩ := isNumberChar_of_readNumber? h
  obtain ⟨htake, hdrop⟩ := takeWhile_dropWhile_iff.2
    ⟨(rfl : tail ++ rest = _), fun d hd => hall d (List.mem_cons_of_mem c hd), hrest⟩
  refine ⟨c, tail, rfl, hstart, ?_⟩
  rw [readToken_start hstart, htake, hdrop, h]
  rfl

end Json

end DocPath

/-!
# Bytes of texts

Texts are stored as UTF-8. Not every sequence of bytes is a text, but what a text is stored as
reads back as that text.
-/

namespace DocPath

/-- The content of a file. -/
abbrev Bytes := List UInt8

namespace Bytes

/-- What a text is stored as. -/
def ofText (s : String) : Bytes := s.toUTF8.data.toList

/-- The text that bytes store. -/
def text? (bytes : Bytes) : Option String := String.fromUTF8? ⟨bytes.toArray⟩

theorem text?_ofText (s : String) : text? (ofText s) = some s := by
  unfold text? ofText String.fromUTF8?
  rw [Array.toArray_toList, String.toUTF8_eq_toByteArray, dif_pos s.isValidUTF8]
  rfl

/-- A character is stored as one small byte, or starts with a byte of its own kind. -/
theorem exists_utf8EncodeChar_eq_cons (c : Char) :
    ∃ lead tail, String.utf8EncodeChar c = lead :: tail ∧
      (lead < 0x80 ∧ tail = [] ∨ 0xC0 ≤ lead) := by
  unfold String.utf8EncodeChar
  simp only []
  split
  · refine ⟨_, _, rfl, .inl ⟨?_, rfl⟩⟩
    rw [UInt8.lt_iff_toNat_lt, UInt8.toNat_ofNat']
    show _ < 128
    omega
  · split
    · refine ⟨_, _, rfl, .inr ?_⟩
      rw [UInt8.le_iff_toNat_le, UInt8.toNat_ofNat']
      show 192 ≤ _
      omega
    · split
      all_goals
        refine ⟨_, _, rfl, .inr ?_⟩
        rw [UInt8.le_iff_toNat_le, UInt8.toNat_ofNat']
        show 192 ≤ _
        omega

/-- Behind a small byte no byte can stand that continues a character. -/
theorem text?_eq_none {a b : UInt8} (ha : a < 0x80) (hlow : 0x80 ≤ b) (hhigh : b < 0xC0)
    (rest : Bytes) : text? (a :: b :: rest) = none := by
  unfold text? String.fromUTF8?
  rw [dif_neg]
  rintro ⟨cs, hcs⟩
  have hbytes : a :: b :: rest = cs.flatMap String.utf8EncodeChar := by
    simpa [List.utf8Encode] using congrArg (fun bytes => bytes.data.toList) hcs
  cases cs with
  | nil => cases hbytes
  | cons c cs =>
    obtain ⟨lead, tail, hc, hkind⟩ := exists_utf8EncodeChar_eq_cons c
    rw [List.flatMap_cons, hc, List.cons_append] at hbytes
    obtain ⟨rfl, hrest⟩ := List.cons.inj hbytes
    rcases hkind with ⟨-, rfl⟩ | hlarge
    · cases cs with
      | nil => cases hrest
      | cons c' cs =>
        obtain ⟨lead', tail', hc', hkind'⟩ := exists_utf8EncodeChar_eq_cons c'
        rw [List.nil_append, List.flatMap_cons, hc', List.cons_append] at hrest
        obtain ⟨rfl, -⟩ := List.cons.inj hrest
        rcases hkind' with ⟨hsmall, -⟩ | hlarge'
        · exact UInt8.not_lt.2 hlow hsmall
        · exact UInt8.not_lt.2 hlarge' hhigh
    · exact UInt8.not_lt.2 (UInt8.le_trans (by decide) hlarge) ha

end Bytes

end DocPath

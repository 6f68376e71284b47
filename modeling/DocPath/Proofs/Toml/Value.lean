import DocPath.Proofs.Path.Index
import DocPath.Proofs.Toml.Text
import DocPath.Toml.Reader

/-!
# Written values read back

A value reads back wherever what follows ends it: a line feed, a comma or a closing bracket. That
holds of booleans, of whole numbers that fit, of texts and of arrays of texts.
-/

namespace DocPath.Toml

variable {c : Char} {rest tail text word : List Char} {depth : Nat} {v : Node}

/-! ## Around values -/

/-- No value goes on into the text. -/
def EndsValue (rest : List Char) : Prop :=
  Stops (fun c => !(c == '\n' || c == ',' || c == ']')) rest

theorem EndsValue.stops {p : Char → Bool} (h : EndsValue rest)
    (hp : ['\n', ',', ']'].any p = false) : Stops p rest := by
  intro c hc
  rw [← Bool.not_eq_true]
  apply List.any_eq_false.1 hp c
  simpa [Decidable.or_iff_not_imp_left] using h c hc

/-- What gaps start with. -/
def gapMarks : List Char := [' ', '\t', '\n', '\r', '#']

theorem dropGap?_cons (h : c ∉ gapMarks) (tail : List Char) :
    dropGap? false (c :: tail) = some (c :: tail) := by
  simp only [gapMarks, List.mem_cons, List.not_mem_nil, or_false, not_or] at h
  obtain ⟨hspace, htab, hfeed, hreturn, hcomment⟩ := h
  rw [dropGap?.eq_def]
  split
  · contradiction
  · rename_i heq
    exact absurd (List.cons.inj heq).1 hfeed
  · rename_i heq
    exact absurd (List.cons.inj heq).1 hreturn
  · rename_i heq
    obtain ⟨rfl, rfl⟩ := List.cons.inj heq
    simp [hcomment, hspace, htab]

theorem dropBlanks_cons (h : c ∉ gapMarks) (tail : List Char) :
    dropBlanks (c :: tail) = c :: tail := by
  simp only [gapMarks, List.mem_cons, List.not_mem_nil, or_false, not_or] at h
  simp [dropBlanks, h.1, h.2.1]

/-- A text that the reader takes for a value wherever that may end. -/
structure Spells (depth : Nat) (text : List Char) (v : Node) : Prop where
  starts : ∃ c tail, text = c :: tail ∧ c ∉ gapMarks ∧ c ≠ ']'
  reads : ∀ rest, EndsValue rest → readNode? depth (text ++ rest) = some (v, rest)

/-! ## Bare values -/

/-- What values that are no bare words start with. -/
def valueMarks : List Char := ['[', '{', '"', '\x27']

theorem not_mem_of_isWordChar (h : isWordChar c = true) : c ∉ ']' :: (gapMarks ++ valueMarks) := by
  have hmarks : (']' :: (gapMarks ++ valueMarks)).any isWordChar = false := by decide
  exact fun hmem => List.any_eq_false.1 hmarks c hmem h

theorem readNode?_bare (h : c ∉ valueMarks) (tail : List Char) :
    readNode? (depth + 1) (c :: tail) =
      (readBare? (c :: tail)).map fun (v, rest) => (.scalar v, rest) := by
  simp only [valueMarks, List.mem_cons, List.not_mem_nil, or_false, not_or] at h
  obtain ⟨hbracket, hbrace, hdouble, hsingle⟩ := h
  rw [readNode?.eq_def]
  dsimp only
  split
  · rename_i heq
    exact absurd (List.cons.inj heq).1 hbracket
  · rename_i heq
    exact absurd (List.cons.inj heq).1 hbrace
  · rename_i heq
    exact absurd (List.cons.inj heq).1 hdouble
  · rename_i heq
    exact absurd (List.cons.inj heq).1 hsingle
  · rfl

theorem readBare?_append {s : Scalar} (hword : ∀ c ∈ word, isWordChar c = true)
    (h : ofWord? word = some s) (hrest : EndsValue rest) :
    readBare? (word ++ rest) = some (s, rest) := by
  obtain ⟨htake, hdrop⟩ :=
    takeWhile_dropWhile_iff.2 ⟨rfl, hword, hrest.stops (p := isWordChar) (by decide)⟩
  have hspace : ∀ more, rest ≠ ' ' :: more := by
    rintro more rfl
    exact absurd (hrest.stops (p := (· == ' ')) (by decide) ' ' rfl) (by decide)
  rw [readBare?, htake, hdrop]
  dsimp only
  -- A date would go on behind a space only.
  split
  · exact absurd rfl (hspace _)
  · rw [Bool.and_false, if_neg Bool.false_ne_true, h]
    rfl

theorem spells_bare {s : Scalar} (hne : word ≠ []) (hword : ∀ c ∈ word, isWordChar c = true)
    (h : ofWord? word = some s) : Spells (depth + 1) word (.scalar s) := by
  obtain ⟨c, more, rfl⟩ := List.exists_cons_of_ne_nil hne
  have hc := not_mem_of_isWordChar (hword c List.mem_cons_self)
  rw [List.mem_cons, List.mem_append, not_or, not_or] at hc
  obtain ⟨hclose, hgap, hvalue⟩ := hc
  refine ⟨⟨c, more, rfl, hgap, hclose⟩, fun rest hrest => ?_⟩
  have hread := readBare?_append hword h hrest
  rw [List.cons_append] at hread ⊢
  rw [readNode?_bare hvalue, hread]
  rfl

theorem spells_boolean (b : Bool) :
    Spells (depth + 1) (booleanChars b) (.scalar (.boolean b)) := by
  cases b with
  | true =>
      exact spells_bare (by decide) (List.all_eq_true.1 (by decide))
        (by simp [ofWord?, booleanChars])
  | false =>
      exact spells_bare (by decide) (List.all_eq_true.1 (by decide))
        (by simp [ofWord?, booleanChars])

theorem isWordChar_of_isDigit (h : c.isDigit = true) : isWordChar c = true := by
  simp [isWordChar, Char.isAlphanum, h]

/-! ## Whole numbers -/

theorem separated_of_not_mem {cs : List Char} (h : '_' ∉ cs) :
    readGroups?.separated true cs = true := by
  induction cs with
  | nil => rfl
  | cons c cs ih =>
      rw [List.mem_cons, not_or] at h
      rw [readGroups?.separated, if_neg (by simpa using Ne.symm h.1), ih h.2]

/-- Digits without underscores are one group. -/
theorem readGroups?_digits {digits : List Char} (hne : digits ≠ [])
    (hdigits : ∀ d ∈ digits, d.isDigit = true) :
    readGroups? Char.isDigit digits = some digits := by
  have hplain : '_' ∉ digits := fun hmem => absurd (hdigits _ hmem) (by decide)
  have hfilter : digits.filter (· != '_') = digits := by
    refine List.filter_eq_self.2 fun d hd => ?_
    rw [bne_iff_ne]
    rintro rfl
    exact hplain hd
  have hseparated : readGroups?.separated false digits = true := by
    obtain ⟨d, digits, rfl⟩ := List.exists_cons_of_ne_nil hne
    rw [List.mem_cons, not_or] at hplain
    rw [readGroups?.separated, if_neg (by simpa using Ne.symm hplain.1),
      separated_of_not_mem hplain.2]
  rw [readGroups?, hfilter, hseparated, List.all_eq_true.2 hdigits]
  rfl

theorem readWhole?_of_isCanonicalIndex {digits : List Char}
    (h : Segment.isCanonicalIndex digits = true) : readWhole? digits = some digits := by
  cases digits with
  | nil => contradiction
  | cons d digits =>
      obtain ⟨hdigits, hzero⟩ := Segment.isCanonicalIndex_cons.1 h
      unfold readWhole?
      split
      · rename_i heq
        rw [heq]
      · rename_i hnot heq
        obtain ⟨rfl, rfl⟩ := List.cons.inj heq
        rw [hzero rfl] at hnot
        exact absurd rfl hnot
      · exact readGroups?_digits (List.cons_ne_nil d digits) hdigits

theorem readInteger?_digits {digits : List Char} (h : Segment.isCanonicalIndex digits = true) :
    readInteger? digits = some (decimalValue digits : Int) := by
  have hdigits : ∀ d ∈ digits, d.isDigit = true := by
    cases digits with
    | nil => simp
    | cons d digits => exact (Segment.isCanonicalIndex_cons.1 h).1
  have hsign : splitSign digits = (false, digits) := by
    unfold splitSign
    split
    · exact absurd (hdigits _ List.mem_cons_self) (by decide)
    · exact absurd (hdigits _ List.mem_cons_self) (by decide)
    · rfl
  -- A base would show in the second character.
  unfold readInteger?
  split
  · exact absurd (hdigits 'x' (by simp)) (by decide)
  · exact absurd (hdigits 'o' (by simp)) (by decide)
  · exact absurd (hdigits 'b' (by simp)) (by decide)
  · rw [hsign]
    dsimp only
    rw [readWhole?_of_isCanonicalIndex h]
    rfl

theorem ofWord?_toDigits {n : Nat} (h : n < 0x8000000000000000) :
    ofWord? (Nat.toDigits 10 n) = some (.integer n) := by
  have hdigits : ∀ d ∈ Nat.toDigits 10 n, d.isDigit = true :=
    fun d hd => Nat.isDigit_of_mem_toDigits (by decide) (by decide) hd
  have hno (word : List Char) (hword : ∃ d ∈ word, d.isDigit = false) :
      ¬(Nat.toDigits 10 n == word) = true := by
    intro heq
    obtain ⟨d, hd, hnot⟩ := hword
    rw [← beq_iff_eq.1 heq] at hd
    rw [hdigits d hd] at hnot
    cases hnot
  have hfits : fits n = true := by
    simp [fits]
    omega
  rw [ofWord?, if_neg (hno _ ⟨'t', by simp, rfl⟩), if_neg (hno _ ⟨'f', by simp, rfl⟩),
    readInteger?_digits (Segment.isCanonicalIndex_toDigits n), decimalValue_toDigits]
  exact if_pos hfits

theorem spells_toDigits {n : Nat} (h : n < 0x8000000000000000) :
    Spells (depth + 1) (Nat.toDigits 10 n) (.scalar (.integer n)) := by
  refine spells_bare Nat.toDigits_ne_nil (fun c hc => ?_) (ofWord?_toDigits h)
  exact isWordChar_of_isDigit (Nat.isDigit_of_mem_toDigits (by decide) (by decide) hc)

/-! ## Texts -/

theorem readNode?_text {quote : Char} (h : quote = '"' ∨ quote = '\x27') (tail : List Char) :
    readNode? (depth + 1) (quote :: tail) =
      (readText? (quote :: tail)).map fun (s, rest) =>
        (.scalar (.string (String.ofList s)), rest) := by
  rcases h with rfl | rfl
  · rw [readNode?]
  · rw [readNode?]

theorem spells_quoted (s : String) : Spells (depth + 1) (quoted s) (.scalar (.string s)) := by
  have hquoted := inQuotes_quoted s
  obtain ⟨quote, more, hcons, hquote⟩ := hquoted.exists_eq_cons
  refine ⟨⟨quote, more, hcons, ?_⟩, fun rest hrest => ?_⟩
  · rcases hquote with rfl | rfl
    · decide
    · decide
  · have hread := hquoted.readText? (hrest.stops (by decide)) (hrest.stops (by decide))
    rw [hcons, List.cons_append] at hread ⊢
    rw [readNode?_text hquote, hread]
    simp only [Option.map_some, String.ofList_toList]

/-! ## Arrays -/

/-- There is as much text as there are pieces of it, so it can be the fuel of reading them. -/
theorem length_le_length_flatMap {α β : Type} {f : α → List β} (h : ∀ a, f a ≠ []) (l : List α) :
    l.length ≤ (l.flatMap f).length := by
  induction l with
  | nil => exact Nat.le_refl 0
  | cons a l ih =>
      have hpiece : 0 < (f a).length := List.length_pos_iff.2 (h a)
      rw [List.flatMap_cons, List.length_append, List.length_cons]
      omega

theorem dropGap?_indent (n : Nat) (cs : List Char) :
    dropGap? false (List.replicate n ' ' ++ cs) = dropGap? false cs := by
  induction n with
  | zero => rfl
  | succ n ih =>
      rw [List.replicate_succ, List.cons_append, ← ih]
      simp [dropGap?]

theorem dropGap?_break (cs : List Char) : dropGap? false ('\n' :: cs) = dropGap? false cs := by
  rw [dropGap?]

theorem Spells.dropGap? (h : Spells depth text v) (rest : List Char) :
    dropGap? false (text ++ rest) = some (text ++ rest) := by
  obtain ⟨c, more, rfl, hgap, -⟩ := h.starts
  exact dropGap?_cons hgap _

section Elements

variable {done : List Node} {fuel : Nat}

theorem readElements?_close (h : dropGap? false tail = some (']' :: rest)) :
    readElements? (readNode? depth) done tail (fuel + 1) = some (done.reverse, rest) := by
  rw [readElements?, h]
  rfl

/-- An element is read, and then those behind the comma. -/
theorem Spells.readElements?_comma (hv : Spells depth text v)
    (h : Toml.dropGap? false tail = some (text ++ ',' :: rest)) :
    readElements? (readNode? depth) done tail (fuel + 1) =
      readElements? (readNode? depth) (v :: done) rest fuel := by
  have hread := hv.reads (',' :: rest) (stops_cons.2 (by decide))
  have hcomma : Toml.dropGap? false (',' :: rest) = some (',' :: rest) :=
    dropGap?_cons (by decide) rest
  obtain ⟨c, more, rfl, -, hclose⟩ := hv.starts
  rw [List.cons_append] at h hread
  rw [readElements?, h]
  simp only [Option.bind_eq_bind, Option.bind_some]
  split
  · rename_i heq
    exact absurd (List.cons.inj heq).1 hclose
  · simp only [hread, Option.bind_some, hcomma]

/-- An element is read, and there are no more. -/
theorem Spells.readElements?_last (hv : Spells depth text v)
    (h : Toml.dropGap? false tail = some (text ++ ']' :: rest)) :
    readElements? (readNode? depth) done tail (fuel + 1) = some ((v :: done).reverse, rest) := by
  have hread := hv.reads (']' :: rest) (stops_cons.2 (by decide))
  have hbracket : Toml.dropGap? false (']' :: rest) = some (']' :: rest) :=
    dropGap?_cons (by decide) rest
  obtain ⟨c, more, rfl, -, hclose⟩ := hv.starts
  rw [List.cons_append] at h hread
  rw [readElements?, h]
  simp only [Option.bind_eq_bind, Option.bind_some]
  split
  · rename_i heq
    exact absurd (List.cons.inj heq).1 hclose
  · simp only [hread, Option.bind_some, hbracket]
    rfl

/-- The node of a text. -/
def textNode (s : String) : Node := .scalar (.string s)

/-- A line of an array with one text on it. -/
def itemLine (s : String) : List Char := List.replicate 4 ' ' ++ quoted s ++ [',', '\n']

theorem readElements?_itemLines (items : List String) (h : items.length < fuel) :
    readElements? (readNode? (depth + 1)) done
        ('\n' :: (items.flatMap itemLine ++ ']' :: rest)) fuel =
      some (done.reverse ++ items.map textNode, rest) := by
  induction items generalizing done fuel with
  | nil =>
      obtain ⟨fuel, rfl⟩ := Nat.exists_eq_succ_of_ne_zero (Nat.ne_of_gt h)
      rw [readElements?_close rfl]
      simp
  | cons s items ih =>
      obtain ⟨fuel, rfl⟩ := Nat.exists_eq_succ_of_ne_zero (Nat.ne_zero_of_lt h)
      have hs : Spells (depth + 1) (quoted s) (textNode s) := spells_quoted s
      have hline : (s :: items).flatMap itemLine ++ ']' :: rest =
          List.replicate 4 ' ' ++
            (quoted s ++ ',' :: '\n' :: (items.flatMap itemLine ++ ']' :: rest)) := by
        simp [itemLine]
      have hstart := hs.dropGap? (',' :: '\n' :: (items.flatMap itemLine ++ ']' :: rest))
      rw [← dropGap?_indent 4, ← dropGap?_break, ← hline] at hstart
      rw [hs.readElements?_comma hstart, ih (by simpa using h)]
      simp

end Elements

theorem readNode?_array (cs : List Char) :
    readNode? (depth + 1) ('[' :: cs) =
      (readElements? (readNode? depth) [] cs (cs.length + 1)).map fun (vs, rest) =>
        (.array vs, rest) := by
  rw [readNode?]

theorem spells_quotedArray (items : List String) :
    Spells (depth + 2) (quotedArray items) (.array (items.map textNode)) := by
  rcases items with _ | ⟨s, _ | ⟨t, items⟩⟩
  · refine ⟨⟨'[', [']'], rfl, by decide, by decide⟩, fun rest _ => ?_⟩
    have hread : quotedArray [] ++ rest = '[' :: ']' :: rest := rfl
    rw [hread, readNode?_array, readElements?_close rfl]
    rfl
  · refine ⟨⟨'[', quoted s ++ [']'], rfl, by decide, by decide⟩, fun rest _ => ?_⟩
    have hs : Spells (depth + 1) (quoted s) (textNode s) := spells_quoted s
    have hread : quotedArray [s] ++ rest = '[' :: (quoted s ++ ']' :: rest) := by
      simp [quotedArray]
    rw [hread, readNode?_array, hs.readElements?_last (hs.dropGap? _)]
    rfl
  · refine ⟨⟨'[', _, rfl, by decide, by decide⟩, fun rest _ => ?_⟩
    have hlines : quotedArray (s :: t :: items) =
        '[' :: '\n' :: ((s :: t :: items).flatMap itemLine ++ [']']) := rfl
    have hread : quotedArray (s :: t :: items) ++ rest =
        '[' :: '\n' :: ((s :: t :: items).flatMap itemLine ++ ']' :: rest) := by
      rw [hlines, List.cons_append, List.cons_append, List.append_assoc]
      rfl
    have hfuel := length_le_length_flatMap (f := itemLine) (by simp [itemLine]) (s :: t :: items)
    rw [hread, readNode?_array, readElements?_itemLines (s :: t :: items)]
    · rfl
    · simp only [List.length_cons, List.length_append] at hfuel ⊢
      omega

end DocPath.Toml

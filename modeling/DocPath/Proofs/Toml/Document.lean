import DocPath.Proofs.Toml.Value

/-!
# Written documents read back

A line with a key and a value reads back as their statement. So a document of written fields, line
by line, reads back as their table if no key comes twice.
-/

namespace DocPath.Toml

variable {c : Char} {rest text : List Char} {v : Node}

/-! ## Lines -/

/-- A key that stands without quotes. -/
def IsBareKey (key : String) : Prop :=
  key.toList ≠ [] ∧ ∀ c ∈ key.toList, isKeyChar c = true

theorem not_mem_of_isKeyChar (h : isKeyChar c = true) :
    c ∉ '\uFEFF' :: (gapMarks ++ valueMarks) := by
  have hmarks : ('\uFEFF' :: (gapMarks ++ valueMarks)).any isKeyChar = false := by decide
  exact fun hmem => List.any_eq_false.1 hmarks c hmem h

theorem IsBareKey.exists_eq_cons {key : String} (h : IsBareKey key) :
    ∃ c more, key.toList = c :: more ∧ c ≠ '\uFEFF' ∧ c ∉ gapMarks ∧ c ∉ valueMarks := by
  obtain ⟨c, more, hcons⟩ := List.exists_cons_of_ne_nil h.1
  have hc := not_mem_of_isKeyChar (h.2 c (hcons ▸ List.mem_cons_self))
  rw [List.mem_cons, List.mem_append, not_or, not_or] at hc
  exact ⟨c, more, hcons, hc⟩

theorem readName?_bare {key : String} (h : IsBareKey key) (hrest : Stops isKeyChar rest) :
    readName? (key.toList ++ rest) = some (key, rest) := by
  obtain ⟨htake, hdrop⟩ := takeWhile_dropWhile_iff.2 ⟨rfl, h.2, hrest⟩
  obtain ⟨c, more, hcons, -, -, hc⟩ := h.exists_eq_cons
  have hne : ¬key.toList.isEmpty = true := by simp [hcons]
  unfold readName?
  split
  · rename_i heq
    rw [hcons, List.cons_append] at heq
    rw [(List.cons.inj heq).1] at hc
    exact absurd hc (by decide)
  · rename_i heq
    rw [hcons, List.cons_append] at heq
    rw [(List.cons.inj heq).1] at hc
    exact absurd hc (by decide)
  · dsimp only
    rw [htake, hdrop, if_neg hne, String.ofList_toList]

theorem readKey?_bare {key : String} (h : IsBareKey key) (tail : List Char) (fuel : Nat) :
    readKey? (key.toList ++ ' ' :: '=' :: tail) (fuel + 1) = some ([key], '=' :: tail) := by
  have hname : readName? (key.toList ++ ' ' :: '=' :: tail) = some (key, ' ' :: '=' :: tail) :=
    readName?_bare h (stops_cons.2 (by decide))
  have hstart : dropBlanks (key.toList ++ ' ' :: '=' :: tail) =
      key.toList ++ ' ' :: '=' :: tail := by
    obtain ⟨c, more, hcons, -, hgap, -⟩ := h.exists_eq_cons
    rw [hcons]
    exact dropBlanks_cons hgap _
  have hbehind : dropBlanks (' ' :: '=' :: tail) = '=' :: tail := by simp [dropBlanks]
  rw [readKey?, hstart, hname]
  simp only [Option.bind_eq_bind, Option.bind_some, hbehind]
  rfl

theorem readField?_line {key : String} (h : IsBareKey key) (hv : Spells maxDepth text v)
    (rest : List Char) :
    readField? (readNode? maxDepth) (line key text ++ rest) = some (([key], v), '\n' :: rest) := by
  have hline : line key text ++ rest =
      key.toList ++ ' ' :: '=' :: ' ' :: (text ++ '\n' :: rest) := by simp [line]
  have hread := hv.reads ('\n' :: rest) (stops_cons.2 (by decide))
  obtain ⟨c, more, rfl, hgap, -⟩ := hv.starts
  have hblank : dropBlanks (' ' :: (c :: more ++ '\n' :: rest)) = c :: more ++ '\n' :: rest := by
    have hstart := dropBlanks_cons hgap (more ++ '\n' :: rest)
    simpa [dropBlanks] using hstart
  rw [hline, readField?, readKey?_bare h]
  simp only [Option.bind_eq_bind, Option.bind_some, hblank, hread]
  rfl

theorem readStatement?_line {key : String} (h : IsBareKey key) (hv : Spells maxDepth text v)
    (rest : List Char) :
    readStatement? (line key text ++ rest) = some (.field [key] v, '\n' :: rest) := by
  have hread := readField?_line h hv rest
  obtain ⟨c, more, hcons, -, -, hc⟩ := h.exists_eq_cons
  have hbracket : ∀ tail, line key text ++ rest ≠ '[' :: tail := by
    intro tail heq
    have hfirst : c = '[' := by simpa [line, hcons] using congrArg List.head? heq
    rw [hfirst] at hc
    exact absurd hc (by decide)
  unfold readStatement?
  split
  · rename_i heq
    exact absurd heq (hbracket _)
  · rename_i heq
    exact absurd heq (hbracket _)
  · rw [hread]
    rfl

/-! ## Documents -/

/-- A field as it is written. -/
structure WrittenField where
  key : String
  text : List Char
  node : Node
  isBareKey : IsBareKey key
  spells : Spells maxDepth text node

namespace WrittenField

def line (f : WrittenField) : List Char := Toml.line f.key f.text

def statement (f : WrittenField) : Statement := .field [f.key] f.node

def entry (f : WrittenField) : String × Node := (f.key, f.node)

theorem exists_line_eq_cons (f : WrittenField) :
    ∃ c more, f.line = c :: more ∧ c ≠ '\uFEFF' ∧ c ∉ gapMarks := by
  obtain ⟨c, more, hcons, hmark, hgap, -⟩ := f.isBareKey.exists_eq_cons
  exact ⟨c, more ++ ' ' :: '=' :: ' ' :: (f.text ++ ['\n']), by simp [line, Toml.line, hcons],
    hmark, hgap⟩

/-- The line of a field is read, and then those behind it. -/
theorem readStatements?_line (f : WrittenField) (rest : List Char) (fuel : Nat) :
    readStatements? (f.line ++ rest) (fuel + 1) =
      (readStatements? rest fuel).map (f.statement :: ·) := by
  have hread : readStatement? (f.line ++ rest) = some (f.statement, '\n' :: rest) :=
    readStatement?_line f.isBareKey f.spells rest
  have hend : dropLine? false ('\n' :: rest) = some rest := by rw [dropLine?]
  obtain ⟨c, more, hcons, -, hgap⟩ := f.exists_line_eq_cons
  rw [hcons, List.cons_append] at hread ⊢
  rw [readStatements?, dropGap?_cons hgap]
  simp only [Option.bind_eq_bind, Option.bind_some, hread, hend, Option.map_eq_bind]
  rfl

theorem readStatements?_lines (fields : List WrittenField) {fuel : Nat}
    (h : fields.length < fuel) :
    readStatements? (fields.flatMap line) fuel = some (fields.map statement) := by
  induction fields generalizing fuel with
  | nil =>
      obtain ⟨fuel, rfl⟩ := Nat.exists_eq_succ_of_ne_zero (Nat.ne_of_gt h)
      rfl
  | cons f fields ih =>
      obtain ⟨fuel, rfl⟩ := Nat.exists_eq_succ_of_ne_zero (Nat.ne_zero_of_lt h)
      rw [List.flatMap_cons, f.readStatements?_line, ih (by simpa using h)]
      rfl

theorem add_statement {t : Fields} (f : WrittenField) (h : Table.get? t f.key = none) :
    Document.add ⟨t, []⟩ f.statement = some ⟨t ++ [f.entry], []⟩ := by
  have hinsert : Fields.insertUnder f.node [f.key] t [] = some (t ++ [f.entry]) := by
    rw [Fields.insertUnder, Fields.insert, Table.put_of_get?_eq_none h, h]
    rfl
  rw [statement, Document.add]
  dsimp only
  rw [hinsert]
  rfl

/-- Fields with keys of their own are put behind those that are there. -/
theorem foldlM_add_statements {t : Fields} (fields : List WrittenField)
    (hdistinct : (t.keys ++ fields.map key).Nodup) :
    (fields.map statement).foldlM Document.add ⟨t, []⟩ = some ⟨t ++ fields.map entry, []⟩ := by
  induction fields generalizing t with
  | nil => simp
  | cons f fields ih =>
      have hfresh : Table.get? t f.key = none := by
        rw [Table.get?_eq_none_iff]
        intro hmem
        exact (List.nodup_append.1 hdistinct).2.2 f.key hmem f.key (by simp) rfl
      have hrest : (Table.keys (t ++ [f.entry]) ++ fields.map key).Nodup := by
        simpa [Table.keys, entry] using hdistinct
      rw [List.map_cons, List.foldlM_cons, f.add_statement hfresh]
      simp only [Option.bind_eq_bind, Option.bind_some]
      rw [ih hrest]
      simp

/-- A document of written fields reads back as their table. -/
theorem parse?_lines (fields : List WrittenField) (hdistinct : (fields.map key).Nodup) :
    parse? (String.ofList (fields.flatMap line)) = some ⟨fields.map entry, []⟩ := by
  have hmark : dropMark (fields.flatMap line) = fields.flatMap line := by
    cases fields with
    | nil => rfl
    | cons f fields =>
        obtain ⟨c, more, hcons, hc, -⟩ := f.exists_line_eq_cons
        rw [List.flatMap_cons, hcons, List.cons_append, dropMark]
        rintro rest heq
        exact hc (List.cons.inj heq).1
  have hfuel := length_le_length_flatMap (f := line) (by simp [line, Toml.line]) fields
  have hdocument : Document.ofStatements? (fields.map statement) = some ⟨fields.map entry, []⟩ :=
    foldlM_add_statements fields hdistinct
  rw [parse?, String.toList_ofList, hmark, readStatements?_lines fields (Nat.lt_succ_of_le hfuel)]
  exact hdocument

end WrittenField

end DocPath.Toml

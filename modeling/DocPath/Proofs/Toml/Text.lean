import DocPath.Proofs.Toml.Character

/-!
# Quoted texts read back

In double quotes every character is written so that the reader gives it back; single quotes are
only put around texts that can stand there as they are. In three quotes the text may hold such
quotes too, but no three in a row. The reader meets up to two of them before it knows whether a
third closes the text, so its laws are stated with a run of quotes that is still pending.
-/

namespace DocPath.Toml

variable {c : Char} {cs rest tail text : List Char}

/-! ## Texts on one line -/

theorem readBasic?_quote (tail : List Char) : readBasic? ('"' :: tail) = some ([], tail) := by
  rw [readBasic?, if_pos rfl]

theorem Written.readBasic? (h : Written false c text) (tail : List Char) :
    readBasic? (text ++ tail) = (readBasic? tail).map fun (s, rest) => (c :: s, rest) := by
  cases h with
  | code _ reads =>
      rw [List.cons_append, Toml.readBasic?, if_neg (by decide), if_pos rfl]
      split
      · rename_i hnone
        rw [reads] at hnone
        cases hnone
      · rename_i hsome
        rw [reads] at hsome
        cases hsome
        rfl
  | plain hquote hbackslash hallowed =>
      have hallowed' : isAllowed c = true := by simpa using hallowed
      rw [List.singleton_append, Toml.readBasic?, if_neg (hquote rfl), if_neg hbackslash,
        if_pos hallowed']

theorem readBasic?_flatMap_escape (cs tail : List Char) :
    readBasic? (cs.flatMap (escape · false) ++ '"' :: tail) = some (cs, tail) := by
  induction cs with
  | nil => exact readBasic?_quote tail
  | cons c cs ih =>
      rw [List.flatMap_cons, List.append_assoc, (written_escape c false).readBasic?, ih]
      rfl

theorem readLiteral?_append (h : ∀ c ∈ cs, c ≠ '\x27' ∧ isAllowed c = true) (tail : List Char) :
    readLiteral? (cs ++ '\x27' :: tail) = some (cs, tail) := by
  induction cs with
  | nil => rfl
  | cons c cs ih =>
      obtain ⟨hquote, hallowed⟩ := h c List.mem_cons_self
      rw [List.cons_append, readLiteral?, if_neg hquote, if_pos hallowed,
        ih fun d hd => h d (List.mem_cons_of_mem c hd)]
      rfl

/-! ## Runs of quotes -/

theorem replicate_append_cons (run : Nat) (quote : Char) (cs : List Char) :
    List.replicate run quote ++ quote :: cs = List.replicate (run + 1) quote ++ cs := by
  rw [List.append_cons, ← List.replicate_succ']

theorem readEnd_replicate {quote : Char} {run : Nat} (hrun : run ≤ 2)
    (hrest : Stops (· == quote) rest) :
    readEnd quote (List.replicate run quote ++ rest) = (List.replicate run quote, rest) := by
  have hhead : ∀ a more, rest = a :: more → a ≠ quote := by
    rintro a more rfl
    simpa using stops_cons.1 hrest
  obtain rfl | rfl | rfl : run = 0 ∨ run = 1 ∨ run = 2 := by omega
  · rcases rest with _ | ⟨a, _ | ⟨b, more⟩⟩
    · rfl
    · simp [readEnd, hhead a [] rfl]
    · simp [readEnd, hhead a (b :: more) rfl]
  · rcases rest with _ | ⟨a, more⟩
    · simp [readEnd]
    · simp [readEnd, hhead a more rfl]
  · simp [readEnd]

/-- A reader of texts between three quotes: three in a row close the text, fewer belong to it. -/
structure ClosesByThree (read : List Char → Option (List Char × List Char)) (quote : Char) :
    Prop where
  close : ∀ rest, read (quote :: quote :: quote :: rest) = some (readEnd quote rest)
  keep : ∀ tail, (∀ rest, tail ≠ quote :: quote :: rest) →
    read (quote :: tail) = (read tail).map fun (s, rest) => (quote :: s, rest)

namespace ClosesByThree

variable {read : List Char → Option (List Char × List Char)} {quote : Char} {run : Nat}

/-- Pending quotes belong to the text if something else comes before the third. -/
theorem read_replicate (h : ClosesByThree read quote) (hrun : run ≤ 2)
    (hcs : Stops (· == quote) cs) :
    read (List.replicate run quote ++ cs) =
      (read cs).map fun (s, rest) => (List.replicate run quote ++ s, rest) := by
  induction run with
  | zero => simp
  | succ run ih =>
      have hfew : ∀ rest, List.replicate run quote ++ cs ≠ quote :: quote :: rest := by
        intro rest heq
        obtain rfl | rfl : run = 0 ∨ run = 1 := by omega
        · rw [List.replicate_zero, List.nil_append] at heq
          simp [heq, Stops] at hcs
        · rw [List.replicate_one, List.singleton_append] at heq
          simp [(List.cons.inj heq).2, Stops] at hcs
      rw [List.replicate_succ, List.cons_append, h.keep _ hfew, ih (by omega), Option.map_map]
      rfl

/-- Pending quotes belong to the text if it is closed behind them. -/
theorem read_end (h : ClosesByThree read quote) (hrun : run ≤ 2)
    (hrest : Stops (· == quote) rest) :
    read (List.replicate run quote ++ quote :: quote :: quote :: rest) =
      some (List.replicate run quote, rest) := by
  have hthree : List.replicate run quote ++ quote :: quote :: quote :: rest =
      quote :: quote :: quote :: (List.replicate run quote ++ rest) := by
    rw [replicate_append_cons, replicate_append_cons, replicate_append_cons]
    rfl
  rw [hthree, h.close, readEnd_replicate hrun hrest]

end ClosesByThree

/-! ## Texts on several lines -/

theorem readLongBasic?_plain (hbackslash : c ≠ '\\') (hallowed : isAllowed c = true ∨ c = '\n')
    (hquotes : ∀ rest, c :: tail ≠ '"' :: '"' :: '"' :: rest) :
    readLongBasic? (c :: tail) = (readLongBasic? tail).map fun (s, rest) => (c :: s, rest) := by
  have hreturn : c ≠ '\r' := ne_return hallowed
  have hallowed' : (isAllowed c || c == '\n') = true := by simpa using hallowed
  rw [readLongBasic?.eq_def]
  split
  · contradiction
  · rename_i heq
    exact absurd heq (hquotes _)
  · rename_i heq
    exact absurd (List.cons.inj heq).1 hreturn
  · rename_i heq
    obtain ⟨rfl, rfl⟩ := List.cons.inj heq
    rw [if_neg hbackslash, if_pos hallowed']

theorem Written.readLongBasic? (h : Written true c text) (tail : List Char)
    (hquote : Stops (· == '"') (text ++ tail)) :
    readLongBasic? (text ++ tail) =
      (readLongBasic? tail).map fun (s, rest) => (c :: s, rest) := by
  cases h with
  | @code code shown reads =>
      rw [List.cons_append, Toml.readLongBasic?.eq_def]
      split
      · contradiction
      · rename_i heq
        cases heq
      · rename_i heq
        cases heq
      · rename_i heq
        obtain ⟨rfl, rfl⟩ := List.cons.inj heq
        rw [if_pos rfl]
        split
        · rename_i hhidden
          rw [shown] at hhidden
          cases hhidden
        · split
          · rename_i hnone
            rw [reads] at hnone
            cases hnone
          · rename_i hsome
            rw [reads] at hsome
            cases hsome
            rfl
  | plain _ hbackslash hallowed =>
      refine readLongBasic?_plain hbackslash (hallowed.imp_right And.right) fun rest heq => ?_
      rw [(List.cons.inj heq).1] at hquote
      exact absurd (stops_cons.1 hquote) (by decide)

theorem closesByThree_readLongBasic? : ClosesByThree readLongBasic? '"' where
  close rest := by rw [readLongBasic?]
  keep tail h := by
    refine readLongBasic?_plain (by decide) (.inl rfl) fun rest heq => ?_
    exact h rest (List.cons.inj heq).2

theorem readLongLiteral?_plain (hallowed : isAllowed c = true ∨ c = '\n')
    (hquotes : ∀ rest, c :: tail ≠ '\x27' :: '\x27' :: '\x27' :: rest) :
    readLongLiteral? (c :: tail) =
      (readLongLiteral? tail).map fun (s, rest) => (c :: s, rest) := by
  have hreturn : c ≠ '\r' := ne_return hallowed
  have hallowed' : (isAllowed c || c == '\n') = true := by simpa using hallowed
  rw [readLongLiteral?.eq_def]
  split
  · contradiction
  · rename_i heq
    exact absurd heq (hquotes _)
  · rename_i heq
    exact absurd (List.cons.inj heq).1 hreturn
  · rename_i heq
    obtain ⟨rfl, rfl⟩ := List.cons.inj heq
    rw [if_pos hallowed']

theorem closesByThree_readLongLiteral? : ClosesByThree readLongLiteral? '\x27' where
  close rest := by rw [readLongLiteral?]
  keep tail h := by
    refine readLongLiteral?_plain (.inl rfl) fun rest heq => ?_
    exact h rest (List.cons.inj heq).2

/-- A character that does not show as a quote ends a run of quotes, which are part of the text. -/
theorem Written.readLongBasic?_replicate {run : Nat} (h : Written true c text)
    (hrun : run ≤ 2) (tail : List Char) (hquote : Stops (· == '"') (text ++ tail)) :
    Toml.readLongBasic? (List.replicate run '"' ++ (text ++ tail)) =
      (Toml.readLongBasic? tail).map fun (s, rest) => (List.replicate run '"' ++ c :: s, rest) := by
  rw [closesByThree_readLongBasic?.read_replicate hrun hquote, h.readLongBasic? tail hquote,
    Option.map_map]
  rfl

/-- A text in three double quotes reads back behind up to two quotes that are part of it. -/
theorem readLongBasic?_escapeLong {run : Nat} (hrun : run ≤ 2) (hrest : Stops (· == '"') rest) :
    readLongBasic? (List.replicate run '"' ++ (escapeLong run cs ++ '"' :: '"' :: '"' :: rest)) =
      some (List.replicate run '"' ++ cs, rest) := by
  induction cs generalizing run with
  | nil =>
      rw [List.append_nil]
      exact closesByThree_readLongBasic?.read_end hrun hrest
  | cons c cs ih =>
      have hrest' := ih (Nat.zero_le 2)
      rw [List.replicate_zero, List.nil_append, List.nil_append] at hrest'
      rw [escapeLong]
      by_cases hquote : c = '"'
      · subst hquote
        rw [if_pos rfl]
        by_cases hfew : run < 2
        · rw [if_pos hfew, List.cons_append, replicate_append_cons, ih hfew,
            replicate_append_cons]
        · -- The third quote in a row is escaped, and the run ends.
          have hwritten : Written true '"' ['\\', '"'] := .letter rfl (by decide)
          have hread := hwritten.readLongBasic?_replicate hrun
            (escapeLong 0 cs ++ '"' :: '"' :: '"' :: rest) (stops_cons.2 rfl)
          rw [hrest'] at hread
          rw [if_neg hfew]
          exact hread
      · have hwritten := written_escape c true
        rw [if_neg hquote, List.append_assoc, hwritten.readLongBasic?_replicate hrun _
          (hwritten.stops_quote (fun _ => hquote) _), hrest']
        rfl

theorem le_longestRun (quote : Char) (run : Nat) (cs : List Char) :
    run ≤ longestRun quote run cs := by
  induction cs generalizing run with
  | nil => exact Nat.le_refl run
  | cons c cs ih =>
      rw [longestRun]
      split
      · exact Nat.le_trans (Nat.le_succ run) (ih (run + 1))
      · exact Nat.le_max_left run _

/-- A text without three single quotes in a row, up to two of which are pending, reads back. -/
theorem readLongLiteral?_append {run : Nat} (hcs : ∀ c ∈ cs, isControl c = false)
    (hruns : longestRun '\x27' run cs ≤ 2) (hrest : Stops (· == '\x27') rest) :
    readLongLiteral?
        (List.replicate run '\x27' ++ (cs ++ '\x27' :: '\x27' :: '\x27' :: rest)) =
      some (List.replicate run '\x27' ++ cs, rest) := by
  have hrun : run ≤ 2 := Nat.le_trans (le_longestRun _ _ _) hruns
  induction cs generalizing run with
  | nil =>
      rw [List.append_nil]
      exact closesByThree_readLongLiteral?.read_end hrun hrest
  | cons c cs ih =>
      have htail : ∀ d ∈ cs, isControl d = false := fun d hd => hcs d (List.mem_cons_of_mem c hd)
      rw [longestRun] at hruns
      by_cases hquote : c = '\x27'
      · subst hquote
        rw [if_pos rfl] at hruns
        have hmore : run + 1 ≤ 2 := Nat.le_trans (le_longestRun _ _ _) hruns
        rw [List.cons_append, replicate_append_cons, ih htail hruns hmore, replicate_append_cons]
      · rw [if_neg hquote] at hruns
        have hallowed := isAllowed_or_break (hcs c List.mem_cons_self)
        have hstops : Stops (· == '\x27') (c :: (cs ++ '\x27' :: '\x27' :: '\x27' :: rest)) :=
          stops_cons.2 (by simpa using hquote)
        have hrest' := ih htail (Nat.le_trans (Nat.le_max_right run _) hruns) (Nat.zero_le 2)
        rw [List.replicate_zero, List.nil_append, List.nil_append] at hrest'
        rw [List.cons_append, closesByThree_readLongLiteral?.read_replicate hrun hstops,
          readLongLiteral?_plain hallowed fun rest heq => hquote (List.cons.inj heq).1, hrest']
        rfl

/-! ## Texts in quotes -/

theorem dropBreak_of_stops (h : Stops isBreak cs) : dropBreak cs = cs := by
  unfold dropBreak
  split
  · exact absurd (stops_cons.1 h) (by decide)
  · exact absurd (stops_cons.1 h) (by decide)
  · rfl

theorem ne_two_of_stops {quote : Char} (h : Stops (· == quote) cs) (rest : List Char) :
    cs ≠ quote :: quote :: rest := by
  rintro rfl
  simp [Stops] at h

theorem ne_two_of_stops_tail {quote : Char} (h : Stops (· == quote) tail) (rest : List Char) :
    quote :: tail ≠ quote :: quote :: rest := by
  intro heq
  rw [(List.cons.inj heq).2] at h
  simp [Stops] at h

/-- A text in double quotes, with escapes. -/
theorem readText?_flatMap_escape (cs : List Char) (hrest : Stops (· == '"') rest) :
    readText? ('"' :: (cs.flatMap (escape · false) ++ '"' :: rest)) = some (cs, rest) := by
  have hone : ∀ more, cs.flatMap (escape · false) ++ '"' :: rest ≠ '"' :: '"' :: more := by
    cases cs with
    | nil => exact ne_two_of_stops_tail hrest
    | cons c cs =>
        rw [List.flatMap_cons, List.append_assoc]
        exact ne_two_of_stops ((written_escape c false).stops_quote (fun h => by cases h) _)
  rw [← readBasic?_flatMap_escape cs rest]
  unfold readText?
  split
  · rename_i heq
    exact absurd (List.cons.inj heq).2 (hone _)
  · rename_i heq
    rw [(List.cons.inj heq).2]
  · rename_i heq
    cases heq
  · rename_i heq
    cases heq
  · rename_i hnone _ _
    exact absurd rfl (hnone _)

/-- A text in single quotes, as it is. -/
theorem readText?_literal (h : ∀ c ∈ cs, c ≠ '\x27' ∧ isAllowed c = true)
    (hrest : Stops (· == '\x27') rest) :
    readText? ('\x27' :: (cs ++ '\x27' :: rest)) = some (cs, rest) := by
  have hone : ∀ more, cs ++ '\x27' :: rest ≠ '\x27' :: '\x27' :: more := by
    cases cs with
    | nil => exact ne_two_of_stops_tail hrest
    | cons c cs =>
        have hc : c ≠ '\x27' := (h c List.mem_cons_self).1
        exact ne_two_of_stops (stops_cons.2 (by simpa using hc))
  rw [← readLiteral?_append h rest]
  unfold readText?
  split
  · rename_i heq
    cases heq
  · rename_i heq
    cases heq
  · rename_i heq
    exact absurd (List.cons.inj heq).2 (hone _)
  · rename_i heq
    rw [(List.cons.inj heq).2]
  · rename_i hnone
    exact absurd rfl (hnone _)

theorem triple_append (quote : Char) (hasBreak : Bool) (cs rest : List Char) :
    triple quote hasBreak cs ++ rest =
      quote :: quote :: quote ::
        ((if hasBreak then ['\n'] else []) ++ (cs ++ quote :: quote :: quote :: rest)) := by
  cases hasBreak <;> simp [triple, List.replicate]

/-- What is put in three quotes is behind them when the first line end has been dropped. -/
theorem dropBreak_triple {hasBreak : Bool} (h : hasBreak = false → Stops isBreak cs) :
    dropBreak ((if hasBreak then ['\n'] else []) ++ cs) = cs := by
  cases hasBreak with
  | true => rfl
  | false => exact dropBreak_of_stops (h rfl)

theorem stops_break_escapeLong (h : '\n' ∉ cs) (rest : List Char) :
    Stops isBreak (escapeLong 0 cs ++ '"' :: rest) := by
  cases cs with
  | nil => exact stops_cons.2 (by decide)
  | cons c cs =>
      have hc : c ≠ '\n' := by
        rintro rfl
        exact h List.mem_cons_self
      rw [escapeLong]
      by_cases hquote : c = '"'
      · rw [if_pos hquote, if_pos (by decide)]
        exact stops_cons.2 (by decide)
      · rw [if_neg hquote, List.append_assoc]
        exact (written_escape c true).stops_break hc _

/-- A text in three double quotes. -/
theorem readText?_triple_escapeLong {hasBreak : Bool} (h : hasBreak = false → '\n' ∉ cs)
    (hrest : Stops (· == '"') rest) :
    readText? (triple '"' hasBreak (escapeLong 0 cs) ++ rest) = some (cs, rest) := by
  rw [triple_append, readText?, dropBreak_triple fun hnone => stops_break_escapeLong (h hnone) _]
  exact readLongBasic?_escapeLong (Nat.zero_le 2) hrest

/-- A text in three single quotes. -/
theorem readText?_triple_literal {hasBreak : Bool} (h : hasBreak = false → '\n' ∉ cs)
    (hcs : ∀ c ∈ cs, isControl c = false) (hruns : longestRun '\x27' 0 cs ≤ 2)
    (hrest : Stops (· == '\x27') rest) :
    readText? (triple '\x27' hasBreak cs ++ rest) = some (cs, rest) := by
  have hstops : hasBreak = false →
      Stops isBreak (cs ++ '\x27' :: '\x27' :: '\x27' :: rest) := by
    intro hnone
    cases cs with
    | nil => exact stops_cons.2 (by decide)
    | cons c cs =>
        have hc : c ≠ '\n' := by
          rintro rfl
          exact h hnone List.mem_cons_self
        have hreturn := ne_return (isAllowed_or_break (hcs c List.mem_cons_self))
        exact stops_cons.2 (by simp [isBreak, hc, hreturn])
  rw [triple_append, readText?, dropBreak_triple hstops]
  exact readLongLiteral?_append hcs hruns hrest

theorem not_mem_of_longestRun_eq_zero {quote : Char} (h : longestRun quote 0 cs = 0) :
    quote ∉ cs := by
  induction cs with
  | nil => exact List.not_mem_nil
  | cons c cs ih =>
      rw [longestRun] at h
      split at h
      · have hone := le_longestRun quote (0 + 1) cs
        omega
      · rename_i hne
        rw [Nat.zero_max] at h
        rw [List.mem_cons, not_or]
        exact ⟨Ne.symm hne, ih h⟩

/-- The ways in which a text is put in quotes. -/
inductive InQuotes (cs : List Char) : List Char → Prop where
  | basic : InQuotes cs ('"' :: (cs.flatMap (escape · false) ++ ['"']))
  | literal (allowed : ∀ c ∈ cs, c ≠ '\x27' ∧ isAllowed c = true) :
      InQuotes cs ('\x27' :: (cs ++ ['\x27']))
  | longBasic {hasBreak : Bool} (oneLine : hasBreak = false → '\n' ∉ cs) :
      InQuotes cs (triple '"' hasBreak (escapeLong 0 cs))
  | longLiteral {hasBreak : Bool} (oneLine : hasBreak = false → '\n' ∉ cs)
      (plain : ∀ c ∈ cs, isControl c = false) (runs : longestRun '\x27' 0 cs ≤ 2) :
      InQuotes cs (triple '\x27' hasBreak cs)

theorem inQuotes_quoted (s : String) : InQuotes s.toList (quoted s) := by
  have hbreak : s.toList.contains '\n' = false → '\n' ∉ s.toList := by simp
  unfold quoted
  dsimp only
  split
  · exact .basic
  · split
    · rename_i h
      simp only [Bool.and_eq_true, Bool.not_eq_true', List.any_eq_false, decide_eq_true_eq] at h
      obtain ⟨⟨hcontrol, hquotes⟩, hline⟩ := h
      refine .literal fun c hc => ⟨?_, ?_⟩
      · rintro rfl
        exact not_mem_of_longestRun_eq_zero hquotes hc
      · refine isAllowed_of_isControl (by simpa using hcontrol c hc) ?_
        rintro rfl
        exact hbreak hline hc
    · split
      · exact .longBasic hbreak
      · split
        · rename_i h
          simp only [Bool.and_eq_true, Bool.not_eq_true', List.any_eq_false,
            decide_eq_true_eq] at h
          exact .longLiteral hbreak (fun c hc => by simpa using h.1 c hc) h.2
        · split
          · exact .longBasic fun h => by cases h
          · exact .basic

/-- A text in quotes reads back if no quote follows. -/
theorem InQuotes.readText? (h : InQuotes cs text) (hdouble : Stops (· == '"') rest)
    (hsingle : Stops (· == '\x27') rest) : readText? (text ++ rest) = some (cs, rest) := by
  have hbehind (quote : Char) (content : List Char) :
      (quote :: (content ++ [quote])) ++ rest = quote :: (content ++ quote :: rest) := by simp
  cases h with
  | basic =>
      rw [hbehind]
      exact readText?_flatMap_escape cs hdouble
  | literal allowed =>
      rw [hbehind]
      exact readText?_literal allowed hsingle
  | longBasic oneLine => exact readText?_triple_escapeLong oneLine hdouble
  | longLiteral oneLine plain runs => exact readText?_triple_literal oneLine plain runs hsingle

theorem InQuotes.exists_eq_cons (h : InQuotes cs text) :
    ∃ quote more, text = quote :: more ∧ (quote = '"' ∨ quote = '\x27') := by
  cases h with
  | basic => exact ⟨_, _, rfl, .inl rfl⟩
  | literal => exact ⟨_, _, rfl, .inr rfl⟩
  | longBasic => exact ⟨_, _, rfl, .inl rfl⟩
  | longLiteral => exact ⟨_, _, rfl, .inr rfl⟩

end DocPath.Toml

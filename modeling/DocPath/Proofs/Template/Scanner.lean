import DocPath.Template.Scanner
import DocPath.Proofs.Template.Language

/-!
# One pass reads the pieces

At every place the scanner has written the pieces in front of it, but for the text that its state
keeps. So what it still writes is the pieces of that text and of what is to come, and in the end it
has written, and asked for, what the pieces of the whole template say.
-/

namespace DocPath.Template

variable {m : Type → Type} [Monad m] [LawfulMonad m] (resolve : String → m String)

/-! ## Names that are not closed yet -/

/-- What a state with an escape at its end has not decided yet. -/
def undecided (escape : Bool) : List Char := if escape then ['$'] else []

/-- Behind `raw` the name up to there is `name`, wherever it is closed. -/
def Opened (raw : List Char) (name : String) (escape : Bool) : Prop :=
  ∀ cs, readName (raw ++ cs) =
    (readName (undecided escape ++ cs)).map fun r => (name.toList ++ r.1, r.2)

theorem opened_nil : Opened [] "" false := by
  intro cs
  simp [undecided]

/-- One character decides about `added`. -/
theorem Opened.concat {raw added : List Char} {name name' : String} {escape escape' : Bool}
    {c : Char} (h : Opened raw name escape) (hname : name'.toList = name.toList ++ added)
    (hread : ∀ cs, readName (undecided escape ++ c :: cs) =
      (readName (undecided escape' ++ cs)).map fun r => (added ++ r.1, r.2)) :
    Opened (raw ++ [c]) name' escape' := by
  intro cs
  rw [List.append_assoc, List.singleton_append, h, hread, Option.map_map, hname]
  simp [Function.comp_def]

theorem Opened.close {raw : List Char} {name : String} (h : Opened raw name false)
    (cs : List Char) : readName (raw ++ ')' :: cs) = some (name.toList, cs) := by
  rw [h]
  simp [undecided, readName_close]

theorem Opened.not_closed {raw : List Char} {name : String} {escape : Bool}
    (h : Opened raw name escape) : readName raw = none := by
  have hread := h []
  rw [List.append_nil, List.append_nil] at hread
  cases escape <;> simpa [undecided, readName] using hread

/-! ## States -/

/-- The text that is not written yet: what a state keeps and what is to come. -/
def State.unwritten : State → List Char → List Char
  | .literal, cs => cs
  | .afterDollar dollar, _ => dollar
  | .bareName start, _ => '$' :: start
  | .bracketName dollar _ _, _ => dollar

/-- A state that the scanner can be in with `cs` to come. -/
inductive Midway : State → List Char → Prop where
  | literal (cs : List Char) : Midway .literal cs
  | afterDollar (cs : List Char) : Midway (.afterDollar ('$' :: cs)) cs
  | bareName {word cs : List Char} (nonempty : word ≠ [])
      (all : ∀ c ∈ word, isNameChar c = true) : Midway (.bareName (word ++ cs)) cs
  | bracketName {raw cs : List Char} {name : String} {escape : Bool}
      (opened : Opened raw name escape) :
      Midway (.bracketName ('$' :: '(' :: (raw ++ cs)) name escape) cs

/-- A step over a character writes the first pieces of what was not written, and leaves the
others. -/
structure Advances (state : State) (c : Char) (rest : List Char) (ps : List Piece)
    (next : State) : Prop where
  midway : Midway next rest
  pieces_eq : pieces (state.unwritten (c :: rest)) = ps ++ pieces (next.unwritten rest)
  step_eq : ∀ out, step resolve out state c rest =
    ps.foldlM (write resolve) out >>= fun out => pure (out, next)

theorem advances_literal (c : Char) (rest : List Char) :
    ∃ ps next, Advances resolve .literal c rest ps next := by
  by_cases hc : c = '$'
  · subst hc
    exact ⟨[], _, .afterDollar rest, rfl, by simp [step]⟩
  · refine ⟨[.char c], .literal, .literal rest, pieces_char hc rest, ?_⟩
    simp [step, write, hc]

theorem advances_afterDollar (c : Char) (rest : List Char) :
    ∃ ps next, Advances resolve (.afterDollar ('$' :: c :: rest)) c rest ps next := by
  by_cases hdollar : c = '$'
  · subst hdollar
    refine ⟨[.char '$'], .literal, .literal rest, pieces_dollar rest, ?_⟩
    simp [step, write]
  by_cases hopen : c = '('
  · subst hopen
    refine ⟨[], _, .bracketName opened_nil, rfl, ?_⟩
    simp [step]
  by_cases hname : isNameChar c = true
  · have hmidway : Midway (.bareName ([c] ++ rest)) rest :=
      .bareName (List.cons_ne_nil c []) (by simpa using hname)
    refine ⟨[], _, hmidway, rfl, ?_⟩
    simp [step, hdollar, hopen, hname]
  · refine ⟨[.char '$', .char c], .literal, .literal rest, ?_, ?_⟩
    · have hlone : ∀ d, (c :: rest).head? = some d → d ≠ '$' ∧ d ≠ '(' ∧ isNameChar d = false := by
        rintro d ⟨⟩
        exact ⟨hdollar, hopen, by simpa using hname⟩
      change pieces ('$' :: c :: rest) = _
      rw [pieces_loneDollar hlone, pieces_char hdollar]
      rfl
    · simp [step, write, hdollar, hopen, hname]

theorem between_append (word cs : List Char) : between (word ++ cs) cs = String.ofList word := by
  simp [between]

theorem advances_bareName {word : List Char} (hword : word ≠ [])
    (hall : ∀ c ∈ word, isNameChar c = true) (c : Char) (rest : List Char) :
    ∃ ps next, Advances resolve (.bareName (word ++ c :: rest)) c rest ps next := by
  by_cases hname : isNameChar c = true
  · have hmidway : Midway (.bareName ((word ++ [c]) ++ rest)) rest := by
      refine .bareName (by simp) ?_
      simpa [or_imp, forall_and, hname] using hall
    rw [List.append_assoc] at hmidway
    refine ⟨[], _, hmidway, rfl, ?_⟩
    simp [step, hname]
  · have hstops : Stops isNameChar (c :: rest) := stops_cons.2 (by simpa using hname)
    have hpieces := pieces_bareName hword hall hstops
    -- The dollar of the next placeholder ends the name as any other character does.
    by_cases hdollar : c = '$'
    · subst hdollar
      refine ⟨[.name (String.ofList word)], _, .afterDollar rest, hpieces, ?_⟩
      simp [step, write, hname, between_append]
    · refine ⟨[.name (String.ofList word), .char c], .literal, .literal rest, ?_, ?_⟩
      · rw [pieces_char hdollar] at hpieces
        exact hpieces
      · simp [step, write, hname, hdollar, between_append]

theorem midway_bracketName {raw : List Char} {name : String} {escape : Bool} {c : Char}
    (h : Opened (raw ++ [c]) name escape) (rest : List Char) :
    Midway (.bracketName ('$' :: '(' :: (raw ++ c :: rest)) name escape) rest := by
  have hmidway : Midway (.bracketName ('$' :: '(' :: ((raw ++ [c]) ++ rest)) name escape) rest :=
    .bracketName h
  rwa [List.append_assoc] at hmidway

theorem advances_bracketName {raw : List Char} {name : String} {escape : Bool}
    (h : Opened raw name escape) (c : Char) (rest : List Char) :
    ∃ ps next, Advances resolve (.bracketName ('$' :: '(' :: (raw ++ c :: rest)) name escape)
      c rest ps next := by
  by_cases hescape : c = '$' ∨ c = ')'
  · cases escape with
    | true =>
        -- The escape stands for its second character.
        have hopened : Opened (raw ++ [c]) (name.push c) false :=
          h.concat (String.toList_push ..) (readName_escape hescape)
        refine ⟨[], _, midway_bracketName hopened rest, rfl, ?_⟩
        simp [step, hescape]
    | false =>
        rcases hescape with rfl | rfl
        · have hopened : Opened (raw ++ ['$']) name true :=
            h.concat (List.append_nil _).symm (by simp [undecided])
          refine ⟨[], _, midway_bracketName hopened rest, rfl, ?_⟩
          simp [step]
        · have hpieces := pieces_name (h.close rest)
          rw [String.ofList_toList] at hpieces
          refine ⟨[.name name], .literal, .literal rest, hpieces, ?_⟩
          simp [step, write]
  · have hplain : c ≠ '$' ∧ c ≠ ')' := not_or.1 hescape
    cases escape with
    | true =>
        -- No escape after all: the dollar before stands for itself.
        have hname : ((name.push '$').push c).toList = name.toList ++ ['$', c] := by simp
        have hopened : Opened (raw ++ [c]) ((name.push '$').push c) false := by
          refine h.concat hname fun cs => ?_
          change readName ('$' :: c :: cs) = _
          rw [readName_loneDollar hplain, readName_char hplain, Option.map_map]
          rfl
        refine ⟨[], _, midway_bracketName hopened rest, rfl, ?_⟩
        simp [step, hescape]
    | false =>
        have hopened : Opened (raw ++ [c]) (name.push c) false :=
          h.concat (String.toList_push ..) (readName_char hplain)
        refine ⟨[], _, midway_bracketName hopened rest, rfl, ?_⟩
        simp [step, hplain]

/-- From every state that the scanner can be in, a step writes pieces and leads to such a state. -/
theorem advances {state : State} {c : Char} {rest : List Char} (h : Midway state (c :: rest)) :
    ∃ ps next, Advances resolve state c rest ps next := by
  cases h with
  | literal => exact advances_literal resolve c rest
  | afterDollar => exact advances_afterDollar resolve c rest
  | bareName hword hall => exact advances_bareName resolve hword hall c rest
  | bracketName hopened => exact advances_bracketName resolve hopened c rest

/-! ## The whole template -/

theorem foldlM_write_char (cs : List Char) (out : String) :
    (cs.map Piece.char).foldlM (write resolve) out = pure (out ++ String.ofList cs) := by
  induction cs generalizing out with
  | nil => simp
  | cons c cs ih =>
      have hpush : out.push c ++ String.ofList cs = out ++ String.ofList (c :: cs) := by
        apply String.toList_inj.1
        simp
      simp [write, ih, hpush]

/-- At the end the scanner writes what it kept. -/
theorem finish_eq {state : State} (h : Midway state []) (out : String) :
    finish resolve out state = (pieces (state.unwritten [])).foldlM (write resolve) out := by
  cases h with
  | literal => simp [finish, State.unwritten, pieces_nil]
  | afterDollar =>
      have hpieces : pieces ['$'] = .char '$' :: pieces [] := pieces_loneDollar nofun
      simp [finish, State.unwritten, hpieces, pieces_nil, write]
  | @bareName word _ hword hall =>
      have hpieces := pieces_bareName hword hall stops_nil
      rw [finish, between_append, State.unwritten, hpieces, pieces_nil]
      simp [write]
  | @bracketName raw _ name escape hopened =>
      -- The name was never closed, so all of it is text from its dollar on.
      have hpieces := pieces_openName hopened.not_closed
      simp only [List.append_nil, State.unwritten, hpieces, foldlM_write_char]
      rfl

/-- From any place on the scanner writes the pieces of what is not written yet. -/
theorem scan_eq {state : State} {cs : List Char} (h : Midway state cs) (out : String) :
    scan resolve out state cs = (pieces (state.unwritten cs)).foldlM (write resolve) out := by
  induction cs generalizing state out with
  | nil =>
      rw [scan]
      exact finish_eq resolve h out
  | cons c rest ih =>
      obtain ⟨ps, next, hmidway, hpieces, hstep⟩ := advances resolve h
      rw [scan, hstep, hpieces, List.foldlM_append, bind_assoc]
      simp only [pure_bind, ih hmidway]

theorem expandM_eq_fill (text : String) :
    expandM resolve text = fill resolve (pieces text.toList) :=
  scan_eq resolve (.literal text.toList) ""

-- A name may hold what looks like a placeholder, and what is never closed is text.
example : expand (fun name => name ++ "!") "$a$$$(b$)$(c)$(d" = "a!$b)$(c!$(d" := by
  rfl

/-! ## The names that are asked for -/

variable {σ : Type}

/-- Recording changes no answer, and adds the names of the pieces in their order. -/
theorem run_foldlM_recording (resolve : String → StateM σ String) (ps : List Piece) (out : String)
    (s : σ) (asked : List String) :
    (ps.foldlM (write (recording resolve)) out).run (s, asked) =
      (((ps.foldlM (write resolve) out).run s).1, ((ps.foldlM (write resolve) out).run s).2,
        asked ++ names ps) := by
  induction ps generalizing out s asked with
  | nil =>
      rw [names, List.filterMap_nil, List.append_nil]
      rfl
  | cons p ps ih =>
      rw [List.foldlM_cons, List.foldlM_cons]
      cases p with
      | char c => exact ih (out.push c) s asked
      | name n =>
          have hnames : asked ++ names (.name n :: ps) = (asked ++ [n]) ++ names ps := by
            simp [names]
          rw [hnames]
          exact ih (out ++ ((resolve n).run s).1) ((resolve n).run s).2 (asked ++ [n])

/-- Every template consists of one list of pieces, which depends on its text alone. Expanding it
writes these pieces, with each name replaced by the answer to it, and asks for their names, each
once and in order, whatever the answers are. -/
theorem exists_pieces_expandM (text : String) :
    ∃ ps, (∀ ps', Consists text.toList ps' ↔ ps' = ps) ∧
      ∀ (σ : Type) (resolve : String → StateM σ String) (s : σ),
        (expandM resolve text).run s = (fill resolve ps).run s ∧
        (expandM (recording resolve) text).run (s, []) =
          (((fill resolve ps).run s).1, ((fill resolve ps).run s).2, names ps) := by
  refine ⟨pieces text.toList, fun ps' => consists_iff, fun σ resolve s => ⟨?_, ?_⟩⟩
  · rw [expandM_eq_fill]
  · rw [expandM_eq_fill, fill, run_foldlM_recording]
    rfl

end DocPath.Template

import DocPath.Json.Reader
import DocPath.Proofs.Json.Number
import DocPath.Proofs.Json.Text
import DocPath.Proofs.Value.Regular

/-!
# Written values read back

The reader comes out of the text of a value with the value complete and the stack as it was, in
whatever container it stands and whatever follows that does not go on with a number. Elements and
fields behind the first one add to the container on top of the stack one by one. Space between
tokens does not count, so this holds of every layout.
-/

namespace DocPath.Json

open Value

/-! ## One token of a run -/

namespace State

variable [DoubleReader] {s s' : State}

theorem run_nil (s : State) : s.run [] = s.value? := by
  rw [run]

theorem run_space {c : Char} (h : isSpace c = true) (tail : List Char) :
    s.run (c :: tail) = s.run tail := by
  rw [run, if_pos h]

theorem run_spaces {blank : List Char} (h : ∀ c ∈ blank, isSpace c = true) (rest : List Char) :
    s.run (blank ++ rest) = s.run rest := by
  induction blank with
  | nil => rfl
  | cons c blank ih =>
      rw [List.cons_append, run_space (h c List.mem_cons_self)]
      exact ih fun d hd => h d (List.mem_cons_of_mem c hd)

theorem run_token {c : Char} {tail rest : List Char} {t : Token} (hspace : isSpace c = false)
    (htoken : readToken c tail = some (t, rest)) (hstep : s.step t = some s') :
    s.run (c :: tail) = s'.run rest := by
  rw [run, hspace, if_neg Bool.false_ne_true]
  split
  · rename_i hnone
    rw [htoken] at hnone
    cases hnone
  · rename_i hsome
    rw [htoken] at hsome
    cases hsome
    rw [hstep]

theorem run_mark {c : Char} (hmark : isMark c = true) (hstep : s.step (.mark c) = some s')
    (rest : List Char) : s.run (c :: rest) = s'.run rest := by
  have hspace : isSpace c = false := by
    simp only [isMark, Bool.or_eq_true, beq_iff_eq] at hmark
    rcases hmark with ((((rfl | rfl) | rfl) | rfl) | rfl) | rfl <;> rfl
  refine run_token hspace ?_ hstep
  rw [readToken, if_pos hmark]

end State

/-- What starts a value: no space, and not the end of an array. -/
def StartsValue (c : Char) : Prop := isSpace c = false ∧ c ≠ ']'

theorem mark_of_readToken [DoubleReader] {c d : Char} {tail rest : List Char}
    (h : readToken c tail = some (.mark d, rest)) : c = d := by
  rcases readToken_cases h with hmark | ⟨s, hs⟩ | hnull | ⟨b, hb⟩ | ⟨n, hn, -⟩
  · cases hmark
    rfl
  · cases hs
  · cases hnull
  · cases hb
  · cases hn

/-- Behind the opening of an array a value is read as its first element. -/
theorem run_opened [DoubleReader] {c : Char} (h : StartsValue c) (stack : List Frame)
    (tail : List Char) :
    (State.opened stack).run (c :: tail) = (State.value (.array [] :: stack)).run (c :: tail) := by
  rw [State.run, State.run, h.1]
  simp only [Bool.false_eq_true, if_false]
  split
  · rfl
  · rename_i t rest htoken
    have hstep : (State.opened stack).step t = (State.value (.array [] :: stack)).step t := by
      cases t with
      | text s => rfl
      | scalar v => rfl
      | mark d =>
          obtain rfl := mark_of_readToken htoken
          simp [State.step, h.2]
    rw [hstep]

/-! ## Layouts -/

/-- Nothing but space stands between the tokens. -/
def Spacing.IsBlank (sp : Spacing) : Prop :=
  (∀ level, ∀ c ∈ sp.line level, isSpace c = true) ∧ ∀ c ∈ sp.afterColon, isSpace c = true

theorem isBlank_compact : Spacing.compact.IsBlank := by
  constructor
  · intro level c hc
    cases hc
  · intro c hc
    cases hc

theorem isBlank_indented (indent : Nat) : (Spacing.indented indent).IsBlank := by
  constructor
  · intro level c hc
    rcases List.mem_cons.1 hc with rfl | hspace
    · rfl
    · rw [List.eq_of_mem_replicate hspace]
      rfl
  · intro c hc
    rw [List.mem_singleton.1 hc]
    rfl

theorem isNumberChar_of_isSpace {c : Char} (h : isSpace c = true) : isNumberChar c = false := by
  simp only [isSpace, Bool.or_eq_true, beq_iff_eq] at h
  rcases h with ((rfl | rfl) | rfl) | rfl <;> rfl

theorem isNumberChar_of_isMark {c : Char} (h : isMark c = true) : isNumberChar c = false := by
  simp only [isMark, Bool.or_eq_true, beq_iff_eq] at h
  rcases h with ((((rfl | rfl) | rfl) | rfl) | rfl) | rfl <;> rfl

/-- Space ends the text of a number, if what follows the space does. -/
theorem stops_blank {blank : List Char} (hblank : ∀ c ∈ blank, isSpace c = true)
    {rest : List Char} (hrest : Stops isNumberChar rest) :
    Stops isNumberChar (blank ++ rest) := by
  cases blank with
  | nil => exact hrest
  | cons b blank => exact stops_cons.2 (isNumberChar_of_isSpace (hblank b List.mem_cons_self))

/-- Space and marks end the text of a number. -/
theorem stops_blank_mark {blank : List Char} (hblank : ∀ c ∈ blank, isSpace c = true) {c : Char}
    (hmark : isMark c = true) (rest : List Char) : Stops isNumberChar (blank ++ c :: rest) :=
  stops_blank hblank (stops_cons.2 (isNumberChar_of_isMark hmark))

/-! ## Containers -/

theorem put_of_nodup {done fields : Table Value} {key : String} {v : Value}
    (h : (Table.keys (done ++ (key, v) :: fields)).Nodup) :
    done.put key v = done ++ [(key, v)] := by
  refine Table.put_of_get?_eq_none ((Table.get?_eq_none_iff done key).2 fun hmem => ?_) v
  rw [Table.keys, List.map_append, List.nodup_append] at h
  exact h.2.2 key hmem key List.mem_cons_self rfl

theorem depth_le_of_mem {elements : List Value} {v : Value} (h : v ∈ elements) :
    v.depth ≤ depthOfElements elements := by
  induction elements with
  | nil => cases h
  | cons w elements ih =>
      rw [depthOfElements]
      rcases List.mem_cons.1 h with rfl | hmem
      · omega
      · have := ih hmem
        omega

theorem depth_le_of_mem_fields {fields : List (String × Value)} {e : String × Value}
    (h : e ∈ fields) : e.2.depth ≤ depthOfFields fields := by
  induction fields with
  | nil => cases h
  | cons e' fields ih =>
      rw [depthOfFields]
      rcases List.mem_cons.1 h with rfl | hmem
      · omega
      · have := ih hmem
        omega

theorem begin_bracket {stack : List Frame} (h : stack.length < maxDepth) :
    (State.value stack).step (.mark '[') = some (.opened stack) := by
  rw [State.step, State.begin, if_neg (by omega)]
  rfl

theorem begin_brace {stack : List Frame} (h : stack.length < maxDepth) :
    (State.value stack).step (.mark '{') = some (.key true [] stack) := by
  rw [State.step, State.begin, if_neg (by omega)]
  rfl

variable {sp : Spacing}

/-- The text of an element ends where the next one or the end of the array begins. -/
theorem stops_elementsChars (hsp : sp.IsBlank) (level level' : Nat) (elements : List Value)
    (rest : List Char) :
    Stops isNumberChar (elementsChars sp level elements ++ sp.line level' ++ ']' :: rest) := by
  cases elements with
  | nil => exact stops_blank_mark (hsp.1 level') rfl rest
  | cons w elements => exact stops_cons.2 rfl

/-- The text of a field ends where the next one or the end of the object begins. -/
theorem stops_fieldsChars (hsp : sp.IsBlank) (level level' : Nat) (fields : List (String × Value))
    (rest : List Char) :
    Stops isNumberChar (fieldsChars sp level fields ++ sp.line level' ++ '}' :: rest) := by
  cases fields with
  | nil => exact stops_blank_mark (hsp.1 level') rfl rest
  | cons e fields => exact stops_cons.2 rfl

variable [DoubleReader]

/-- The text of a value starts neither with space nor with the end of an array. -/
theorem exists_chars_eq_cons {v : Value} (h : IsRegular ReadsBack v) (sp : Spacing)
    (level : Nat) : ∃ c tail, chars sp level v = c :: tail ∧ StartsValue c := by
  cases v with
  | null => exact ⟨'n', _, rfl, rfl, by decide⟩
  | bool b =>
      cases b with
      | true => exact ⟨'t', _, rfl, rfl, by decide⟩
      | false => exact ⟨'f', _, rfl, rfl, by decide⟩
  | string s => exact ⟨'"', _, rfl, rfl, by decide⟩
  | array elements =>
      cases elements with
      | nil => exact ⟨'[', _, rfl, rfl, by decide⟩
      | cons v rest => exact ⟨'[', _, rfl, rfl, by decide⟩
  | object fields =>
      cases fields with
      | nil => exact ⟨'{', _, rfl, rfl, by decide⟩
      | cons e rest => exact ⟨'{', _, rfl, rfl, by decide⟩
  | number n =>
      rcases h with _ | _ | kind
      obtain ⟨-, c, tail, hchars, hstart⟩ := isNumberChar_of_readNumber? kind
      refine ⟨c, tail, hchars, ?_⟩
      rcases hstart with rfl | hdigit
      · exact ⟨rfl, by decide⟩
      · have hbounds : 48 ≤ c.toNat ∧ c.toNat ≤ 57 := Char.isDigit_iff_toNat.1 hdigit
        have hne : ∀ d : Char, d.toNat < 48 ∨ 57 < d.toNat → c ≠ d := by
          rintro d hd rfl
          omega
        constructor
        · simp [isSpace, hne ' ' (by decide), hne '\n' (by decide), hne '\t' (by decide),
            hne '\r' (by decide)]
        · exact hne ']' (by decide)

/-! ## Values -/

/-- The reader comes out of the text of the value with the value complete. -/
def Completes (sp : Spacing) (v : Value) : Prop :=
  ∀ level stack rest, v.depth + stack.length ≤ maxDepth → Stops isNumberChar rest →
    (State.value stack).run (chars sp level v ++ rest) = (State.complete v stack).run rest

/-- Elements behind the first one are added to the array on top of the stack. -/
theorem run_elementsChars (hsp : sp.IsBlank) {elements : List Value}
    (hcompletes : ∀ w ∈ elements, Completes sp w) (level level' : Nat) (v : Value)
    (done : List Value) (stack : List Frame) (rest : List Char)
    (hdepth : ∀ w ∈ elements, w.depth + (stack.length + 1) ≤ maxDepth) :
    (State.complete v (.array done :: stack)).run
        (elementsChars sp level elements ++ sp.line level' ++ ']' :: rest) =
      (State.complete (.array (done.reverse ++ v :: elements)) stack).run rest := by
  induction elements generalizing v done with
  | nil =>
      rw [elementsChars, List.nil_append, State.run_spaces (hsp.1 level'),
        State.run_mark rfl rfl, List.reverse_cons]
  | cons w elements ih =>
      have hw := hcompletes w List.mem_cons_self level (.array (v :: done) :: stack) _
        (hdepth w List.mem_cons_self) (stops_elementsChars hsp level level' elements rest)
      rw [elementsChars]
      simp only [List.cons_append, List.append_assoc] at hw ih ⊢
      rw [State.run_mark rfl rfl, State.run_spaces (hsp.1 level), hw]
      rw [ih (fun u hu => hcompletes u (List.mem_cons_of_mem w hu)) w (v :: done)
        fun u hu => hdepth u (List.mem_cons_of_mem w hu)]
      simp

/-- A quoted key and its colon lead to the value of the field. -/
theorem run_key (hsp : sp.IsBlank) (opened : Bool) (fields : Table Value) (key : String)
    (stack : List Frame) (rest : List Char) :
    (State.key opened fields stack).run (quoted key ++ ':' :: (sp.afterColon ++ rest)) =
      (State.value (.object fields key :: stack)).run rest := by
  have hquoted : quoted key ++ ':' :: (sp.afterColon ++ rest) =
      '"' :: (key.toList.flatMap escape ++ '"' :: ':' :: (sp.afterColon ++ rest)) := by
    simp [quoted]
  have hstep : (State.key opened fields stack).step (.text key) =
      some (.colon fields key stack) := rfl
  rw [hquoted, State.run_token rfl (readToken_quoted key _) hstep, State.run_mark rfl rfl,
    State.run_spaces hsp.2]

/-- Fields behind the first one are added to the object on top of the stack. -/
theorem run_fieldsChars (hsp : sp.IsBlank) {fields : List (String × Value)}
    (hcompletes : ∀ e ∈ fields, Completes sp e.2) (level level' : Nat) (key : String) (v : Value)
    (done : Table Value) (hdistinct : (Table.keys (done ++ (key, v) :: fields)).Nodup)
    (stack : List Frame) (rest : List Char)
    (hdepth : ∀ e ∈ fields, e.2.depth + (stack.length + 1) ≤ maxDepth) :
    (State.complete v (.object done key :: stack)).run
        (fieldsChars sp level fields ++ sp.line level' ++ '}' :: rest) =
      (State.complete (.object (done ++ (key, v) :: fields)) stack).run rest := by
  have hput := put_of_nodup hdistinct
  induction fields generalizing key v done with
  | nil =>
      rw [fieldsChars, List.nil_append, State.run_spaces (hsp.1 level'),
        State.run_mark rfl rfl, hput]
  | cons e fields ih =>
      obtain ⟨key', w⟩ := e
      have hw := hcompletes (key', w) List.mem_cons_self level
        (.object (done ++ [(key, v)]) key' :: stack) _ (hdepth (key', w) List.mem_cons_self)
        (stops_fieldsChars hsp level level' fields rest)
      have hstep : (State.complete v (.object done key :: stack)).step (.mark ',') =
          some (.key false (done ++ [(key, v)]) stack) := by
        rw [← hput]
        rfl
      have hdistinct' : (Table.keys ((done ++ [(key, v)]) ++ (key', w) :: fields)).Nodup := by
        rwa [List.append_assoc]
      have hrest := ih (fun e he => hcompletes e (List.mem_cons_of_mem _ he)) key' w
        (done ++ [(key, v)]) hdistinct' (fun e he => hdepth e (List.mem_cons_of_mem _ he))
        (put_of_nodup hdistinct')
      rw [fieldsChars]
      simp only [List.cons_append, List.append_assoc, List.nil_append] at hw hrest ⊢
      rw [State.run_mark rfl hstep, State.run_spaces (hsp.1 level), run_key hsp, hw, hrest]

theorem completes_scalar {v : Value} (hscalar : v.isContainer = false)
    (hv : IsRegular ReadsBack v) : Completes sp v := by
  intro level stack rest hdepth hrest
  cases v with
  | array | object => contradiction
  | null => exact State.run_token rfl rfl rfl
  | bool b =>
      cases b with
      | true => exact State.run_token rfl rfl rfl
      | false => exact State.run_token rfl rfl rfl
  | string s =>
      have hquoted : chars sp level (.string s) ++ rest =
          '"' :: (s.toList.flatMap escape ++ '"' :: rest) := by
        simp [chars, quoted]
      rw [hquoted, State.run_token rfl (readToken_quoted s rest) rfl]
  | number n =>
      rcases hv with _ | _ | kind
      obtain ⟨c, tail, hchars, hstart, htoken⟩ := readToken_number kind hrest
      obtain ⟨c', tail', hchars', hspace, -⟩ := exists_chars_eq_cons (.number kind) sp level
      have hsame : c = c' ∧ tail = tail' := by
        rw [chars, hchars] at hchars'
        exact List.cons.inj hchars'
      obtain ⟨rfl, rfl⟩ := hsame
      rw [hchars', List.cons_append, State.run_token hspace htoken rfl]

theorem completes_array (hsp : sp.IsBlank) {elements : List Value}
    (hall : ∀ w ∈ elements, IsRegular ReadsBack w) (ih : ∀ w ∈ elements, Completes sp w) :
    Completes sp (.array elements) := by
  intro level stack rest hdepth hrest
  rw [depth] at hdepth
  have hopen : stack.length < maxDepth := by omega
  cases elements with
  | nil =>
      show (State.value stack).run ('[' :: ']' :: rest) = _
      rw [State.run_mark rfl (begin_bracket hopen), State.run_mark rfl rfl]
  | cons v elements =>
      have hinner : ∀ w ∈ v :: elements, w.depth + (stack.length + 1) ≤ maxDepth := by
        intro w hw
        have hle := depth_le_of_mem hw
        omega
      have hv' := ih v List.mem_cons_self (level + 1) (.array [] :: stack) _
        (hinner v List.mem_cons_self) (stops_elementsChars hsp (level + 1) level elements rest)
      have helements := run_elementsChars hsp (fun w hw => ih w (List.mem_cons_of_mem v hw))
        (level + 1) level v [] stack rest fun w hw => hinner w (List.mem_cons_of_mem v hw)
      obtain ⟨c, tail, hchars, hstart⟩ :=
        exists_chars_eq_cons (hall v List.mem_cons_self) sp (level + 1)
      have hfirst := run_opened hstart stack
        (tail ++ (elementsChars sp (level + 1) elements ++ sp.line level ++ ']' :: rest))
      rw [← List.cons_append, ← hchars, hv', helements] at hfirst
      simp only [chars, List.cons_append, List.append_assoc, List.nil_append] at hfirst ⊢
      rw [State.run_mark rfl (begin_bracket hopen), State.run_spaces (hsp.1 (level + 1)), hfirst]
      rfl

theorem completes_object (hsp : sp.IsBlank) {fields : List (String × Value)}
    (hdistinct : (Table.keys fields).Nodup) (ih : ∀ e ∈ fields, Completes sp e.2) :
    Completes sp (.object fields) := by
  intro level stack rest hdepth hrest
  rw [depth] at hdepth
  have hopen : stack.length < maxDepth := by omega
  cases fields with
  | nil =>
      show (State.value stack).run ('{' :: '}' :: rest) = _
      rw [State.run_mark rfl (begin_brace hopen), State.run_mark rfl rfl]
  | cons e fields =>
      obtain ⟨key, v⟩ := e
      have hinner : ∀ e ∈ (key, v) :: fields, e.2.depth + (stack.length + 1) ≤ maxDepth := by
        intro e he
        have hle := depth_le_of_mem_fields he
        omega
      have hv' := ih (key, v) List.mem_cons_self (level + 1) (.object [] key :: stack) _
        (hinner (key, v) List.mem_cons_self) (stops_fieldsChars hsp (level + 1) level fields rest)
      have hfields := run_fieldsChars hsp (fun e he => ih e (List.mem_cons_of_mem _ he))
        (level + 1) level key v [] hdistinct stack rest
        fun e he => hinner e (List.mem_cons_of_mem _ he)
      simp only [chars, List.cons_append, List.append_assoc, List.nil_append] at hv' hfields ⊢
      rw [State.run_mark rfl (begin_brace hopen), State.run_spaces (hsp.1 (level + 1)),
        run_key hsp, hv', hfields]

/-- The reader comes out of the text of every regular value with the value complete. -/
theorem completes {v : Value} (hsp : sp.IsBlank) (hv : IsRegular ReadsBack v) :
    Completes sp v := by
  induction v using childInduction with
  | scalar v hscalar => exact completes_scalar hscalar hv
  | array elements ih =>
      have hall := isRegular_array_iff.1 hv
      exact completes_array hsp hall fun w hw => ih w hw (hall w hw)
  | object fields ih =>
      rcases hv with _ | _ | _ | _ | _ | ⟨hdistinct, hall⟩
      exact completes_object hsp hdistinct fun e he => ih e he (hall e he)

/-- The text of a regular value reads back as the value, space behind it or not. -/
theorem parse?_chars {v : Value} (hsp : sp.IsBlank) (hv : IsRegular ReadsBack v)
    (hdepth : v.depth ≤ maxDepth) {blank : List Char} (hblank : ∀ c ∈ blank, isSpace c = true) :
    parse? (String.ofList (chars sp 0 v ++ blank)) = some v := by
  have hstops : Stops isNumberChar blank := by
    have := stops_blank hblank stops_nil
    rwa [List.append_nil] at this
  have hend := State.run_spaces (s := .complete v []) hblank []
  rw [List.append_nil] at hend
  rw [parse?, String.toList_ofList, completes hsp hv 0 [] blank hdepth hstops, hend, State.run_nil]
  rfl

end DocPath.Json

import DocPath.Json.Reader
import DocPath.Proofs.Json.Number
import DocPath.Proofs.Value.Regular

/-!
# What is read is regular

Every value that the reader holds is regular, those of containers that are still open included: a
key that comes twice is put in its place, and a whole number is read with a sign where it can have
one. A step keeps this, so the value at the end of the text is regular.
-/

namespace DocPath

theorem Number.isNarrow_of_ofInt? {i : Int} {n : Number} (h : Number.ofInt? i = some n) :
    n.IsNarrow := by
  unfold Number.ofInt? at h
  split at h
  · cases h
    trivial
  · rename_i hsigned
    split at h
    · rename_i hsize
      cases h
      have hlarge : 0x8000000000000000 ≤ i := by omega
      have hnat : (UInt64.ofNat i.toNat).toNat = i.toNat :=
        UInt64.toNat_ofNat_of_lt' (by omega)
      show 0x8000000000000000 ≤ (UInt64.ofNat i.toNat).toNat
      omega
    · cases h

namespace Json

open Value

/-- The values that a token brings. -/
def Token.values : Token → List Value
  | .scalar v => [v]
  | _ => []

section

variable [DoubleReader]

theorem isNarrow_of_doubleOf? {negative : Bool} {n : Numeral} {m : Number}
    (h : doubleOf? negative n = some m) : m.IsNarrow := by
  unfold doubleOf? at h
  simp only at h
  split at h
  · cases h
    trivial
  · cases h

theorem isNarrow_of_numberOf? {negative : Bool} {n : Numeral} {m : Number}
    (h : numberOf? negative n = some m) : m.IsNarrow := by
  unfold numberOf? at h
  split at h
  · simp only at h
    split at h
    · cases h
      trivial
    · rcases Option.or_eq_some_iff.1 h with hwhole | ⟨-, hdouble⟩
      · exact Number.isNarrow_of_ofInt? hwhole
      · exact isNarrow_of_doubleOf? hdouble
  · exact isNarrow_of_doubleOf? h

theorem isNarrow_of_readNumber? {cs : List Char} {n : Number} (h : readNumber? cs = some n) :
    n.IsNarrow := by
  unfold readNumber? at h
  simp only at h
  split at h
  · cases h
  · split at h
    · exact isNarrow_of_numberOf? h
    · cases h

theorem isRegular_of_readToken {c : Char} {tail rest : List Char} {t : Token}
    (h : readToken c tail = some (t, rest)) : ∀ v ∈ t.values, IsRegular Number.IsNarrow v := by
  rcases readToken_cases h with rfl | ⟨s, rfl⟩ | rfl | ⟨b, rfl⟩ | ⟨n, rfl, hn⟩
  · exact List.forall_mem_nil _
  · exact List.forall_mem_nil _
  · exact List.forall_mem_singleton.2 .null
  · exact List.forall_mem_singleton.2 (.bool b)
  · exact List.forall_mem_singleton.2 (.number (isNarrow_of_readNumber? hn))

end

/-! ## Steps -/

/-- What a frame holds so far. -/
def Frame.held : Frame → Value
  | .array done => .array done
  | .object done _ => .object done

/-- All that a reader holds. -/
def State.held : State → List Value
  | value stack => stack.map Frame.held
  | opened stack => stack.map Frame.held
  | key _ fields stack => .object fields :: stack.map Frame.held
  | colon fields _ stack => .object fields :: stack.map Frame.held
  | complete v stack => v :: stack.map Frame.held

variable {N : Number → Prop} {s s' : State}

/-- All that a reader holds is regular. -/
def State.IsRegular (N : Number → Prop) (s : State) : Prop := ∀ v ∈ s.held, Value.IsRegular N v

theorem State.isRegular_begin {stack : List Frame} {t : Token}
    (hstack : ∀ v ∈ stack.map Frame.held, Value.IsRegular N v)
    (ht : ∀ v ∈ t.values, Value.IsRegular N v) (h : State.begin stack t = some s') :
    s'.IsRegular N := by
  unfold State.begin at h
  split at h
  · cases h
    exact List.forall_mem_cons.2 ⟨.string _, hstack⟩
  · cases h
    exact List.forall_mem_cons.2 ⟨List.forall_mem_singleton.1 ht, hstack⟩
  · split at h
    · cases h
    · split at h
      · cases h
        exact hstack
      · split at h
        · cases h
          exact List.forall_mem_cons.2 ⟨.object List.nodup_nil (List.forall_mem_nil _), hstack⟩
        · cases h

/-- A step keeps what the reader holds regular. -/
theorem State.IsRegular.step {t : Token} (hs : s.IsRegular N)
    (ht : ∀ v ∈ t.values, Value.IsRegular N v) (h : s.step t = some s') : s'.IsRegular N := by
  have hempty : Value.IsRegular N (.array []) := .array (List.forall_mem_nil _)
  have hempty' : Value.IsRegular N (.object []) := .object List.nodup_nil (List.forall_mem_nil _)
  unfold State.step at h
  split at h
  case h_1 => exact isRegular_begin hs ht h
  case h_2 =>
      cases h
      exact List.forall_mem_cons.2 ⟨hempty, hs⟩
  case h_3 stack _ =>
      have hopened : ∀ v ∈ (Frame.array [] :: stack).map Frame.held, Value.IsRegular N v :=
        List.forall_mem_cons.2 ⟨hempty, hs⟩
      exact isRegular_begin hopened ht h
  case h_4 =>
      cases h
      exact hs
  case h_5 =>
      cases h
      exact List.forall_mem_cons.2 ⟨hempty', (List.forall_mem_cons.1 hs).2⟩
  case h_6 =>
      cases h
      exact hs
  case h_7 =>
      cases h
      obtain ⟨hv, hframe, hstack⟩ := (List.forall_mem_cons.1 hs).imp_right List.forall_mem_cons.1
      have hdone := List.forall_mem_cons.2 ⟨hv, isRegular_array_iff.1 hframe⟩
      exact List.forall_mem_cons.2 ⟨.array hdone, hstack⟩
  case h_8 =>
      cases h
      obtain ⟨hv, hframe, hstack⟩ := (List.forall_mem_cons.1 hs).imp_right List.forall_mem_cons.1
      have hdone := List.forall_mem_cons.2 ⟨hv, isRegular_array_iff.1 hframe⟩
      exact List.forall_mem_cons.2
        ⟨.array fun w hw => hdone w (List.mem_reverse.1 hw), hstack⟩
  case h_9 | h_10 =>
      cases h
      obtain ⟨hv, hframe, hstack⟩ := (List.forall_mem_cons.1 hs).imp_right List.forall_mem_cons.1
      exact List.forall_mem_cons.2 ⟨isRegular_put hframe hv _, hstack⟩
  case h_11 => cases h

/-- What is read to the end of a text is regular. -/
theorem State.IsRegular.run [DoubleReader] {cs : List Char} {v : Value}
    (hs : s.IsRegular Number.IsNarrow) (h : s.run cs = some v) : Value.IsRegular Number.IsNarrow v := by
  fun_induction State.run s cs with
  | case1 s =>
      unfold State.value? at h
      split at h
      · cases h
        exact hs v List.mem_cons_self
      · cases h
  | case2 s c tail hspace ih => exact ih hs h
  | case3 => cases h
  | case4 => cases h
  | case5 s c tail hspace t rest htoken s' hstep ih =>
      exact ih (hs.step (isRegular_of_readToken htoken) hstep) h

theorem isRegular_of_parse? [DoubleReader] {text : String} {v : Value} (h : parse? text = some v) :
    Value.IsRegular Number.IsNarrow v :=
  State.IsRegular.run (s := .value []) (fun v hv => by cases hv) h

end Json

end DocPath

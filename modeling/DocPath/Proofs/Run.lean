import DocPath.Path.Reader

/-!
# Runs and answers

Readers take the longest run of characters of one kind off a text, and hand on what the readers
before them answered. This module says once how a text splits at the end of a run and when a
chain of answers succeeds, so that no reader's specification has to open either.
-/

namespace DocPath

section Runs

variable {α : Type} {p : α → Bool}

/-- A run of elements with `p` cannot go on into the list. -/
def Stops (p : α → Bool) (rest : List α) : Prop := ∀ a ∈ rest.head?, p a = false

theorem stops_nil : Stops p [] := by
  intro a ha
  cases ha

theorem stops_cons {a : α} {rest : List α} : Stops p (a :: rest) ↔ p a = false := by
  simp [Stops]

/-- Only the first element of what is behind a run counts. -/
theorem stops_congr {rest rest' : List α} (h : rest'.head? = rest.head?) :
    Stops p rest' ↔ Stops p rest := by
  unfold Stops
  rw [h]

theorem stops_append {front : List α} (hne : front ≠ []) (h : Stops p front) (back : List α) :
    Stops p (front ++ back) := by
  obtain ⟨a, front, rfl⟩ := List.exists_cons_of_ne_nil hne
  exact h

theorem stops_of_isPrefix {start l : List α} (h : Stops p l) (hstart : start <+: l) :
    Stops p start := by
  obtain ⟨rest, rfl⟩ := hstart
  cases start with
  | nil => exact stops_nil
  | cons a start => exact h

theorem stops_dropWhile (l : List α) : Stops p (l.dropWhile p) := by
  intro a ha
  have hnot := List.head?_dropWhile_not p l
  rw [Option.mem_def.1 ha] at hnot
  simpa using hnot

/-- The longest run and what is behind it are the one split of a list into elements with `p` and
a rest that does not go on with them. -/
theorem takeWhile_dropWhile_iff {l run rest : List α} :
    l.takeWhile p = run ∧ l.dropWhile p = rest ↔
      l = run ++ rest ∧ (∀ a ∈ run, p a = true) ∧ Stops p rest := by
  constructor
  · rintro ⟨rfl, rfl⟩
    refine ⟨List.takeWhile_append_dropWhile.symm, ?_, stops_dropWhile l⟩
    exact List.all_eq_true.1 List.all_takeWhile
  · rintro ⟨rfl, hrun, hstops⟩
    rw [List.takeWhile_append_of_pos hrun, List.dropWhile_append_of_pos hrun]
    cases rest with
    | nil => exact ⟨List.append_nil run, rfl⟩
    | cons a rest =>
        have ha : p a = false := stops_cons.1 hstops
        simp [ha]

end Runs

section Answers

variable {ε ε' α β : Type}

theorem bind_eq_ok_iff {x : Except ε α} {f : α → Except ε β} {b : β} :
    x >>= f = .ok b ↔ ∃ a, x = .ok a ∧ f a = .ok b := by
  cases x with
  | error e => simp [bind, Except.bind]
  | ok a => simp [bind, Except.bind]

theorem map_eq_ok_iff {x : Except ε α} {f : α → β} {b : β} :
    x.map f = .ok b ↔ ∃ a, x = .ok a ∧ f a = b := by
  cases x with
  | error e => simp [Except.map]
  | ok a => simp [Except.map]

theorem bind_eq_error_iff {x : Except ε α} {f : α → Except ε β} {e : ε} :
    x >>= f = .error e ↔ x = .error e ∨ ∃ a, x = .ok a ∧ f a = .error e := by
  cases x with
  | error e' => simp [bind, Except.bind]
  | ok a => simp [bind, Except.bind]

theorem map_eq_error_iff {x : Except ε α} {f : α → β} {e : ε} :
    x.map f = .error e ↔ x = .error e := by
  cases x with
  | error e' => simp [Except.map]
  | ok a => simp [Except.map]

theorem mapError_eq_error_iff {x : Except ε α} {f : ε → ε'} {e' : ε'} :
    x.mapError f = .error e' ↔ ∃ e, x = .error e ∧ f e = e' := by
  constructor
  · intro h
    cases x with
    | error e =>
        cases h
        exact ⟨e, rfl, rfl⟩
    | ok a => cases h
  · rintro ⟨e, rfl, rfl⟩
    rfl

theorem mapError_eq_ok_iff {x : Except ε α} {f : ε → ε'} {a : α} :
    x.mapError f = .ok a ↔ x = .ok a := by
  constructor
  · intro h
    cases x with
    | error e => cases h
    | ok b =>
        cases h
        rfl
  · rintro rfl
    rfl

end Answers

end DocPath

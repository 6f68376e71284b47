/-!
# Insertion-ordered tables

A table maps texts to values and remembers the order in which its keys were first put.
-/

namespace DocPath

/-- Entries in order, each key once. -/
abbrev Table (α : Type) := List (String × α)

namespace Table

variable {α : Type}

/-- The value under a key. -/
def get? (t : Table α) (key : String) : Option α := t.lookup key

/-- Puts a value under a key: a key that is there keeps its place, a new one goes to the end. -/
def put (t : Table α) (key : String) (value : α) : Table α :=
  if t.any (·.1 == key) then t.map fun e => if e.1 == key then (key, value) else e
  else t ++ [(key, value)]

/-- The table that results from putting entries one after the other. -/
def ofEntries (entries : List (String × α)) : Table α :=
  entries.foldl (fun t e => t.put e.1 e.2) []

/-- The keys in order. -/
def keys (t : Table α) : List String := t.map (·.1)

theorem keys_cons (key : String) (v : α) (t : Table α) : keys ((key, v) :: t) = key :: keys t := rfl

theorem nodup_keys_cons_iff {key : String} {v : α} {t : Table α} :
    (keys ((key, v) :: t)).Nodup ↔ key ∉ keys t ∧ (keys t).Nodup := List.nodup_cons

@[simp] theorem get?_nil (key : String) : get? ([] : Table α) key = none := rfl

theorem get?_cons (key key' : String) (v : α) (t : Table α) :
    get? ((key, v) :: t) key' = if key' = key then some v else get? t key' := by
  by_cases h : key' = key
  · simp [get?, h]
  · simp [get?, List.lookup_cons, h, beq_eq_false_iff_ne.2 h]

theorem get?_append (t u : Table α) (key : String) :
    get? (t ++ u) key = (get? t key).or (get? u key) := by
  induction t with
  | nil => simp
  | cons e t ih =>
    obtain ⟨k, v⟩ := e
    rw [List.cons_append, get?_cons, get?_cons, ih]
    split <;> rfl

/-- A table holds something under a key exactly if it has that key. -/
theorem get?_eq_none_iff (t : Table α) (key : String) : t.get? key = none ↔ key ∉ t.keys := by
  induction t with
  | nil => simp [keys]
  | cons e t ih =>
    obtain ⟨k, v⟩ := e
    rw [get?_cons]
    by_cases h : key = k
    · simp [h, keys]
    · simp [h, keys] at ih ⊢
      exact ih

theorem mem_of_get? {t : Table α} {key : String} {v : α} (h : t.get? key = some v) :
    (key, v) ∈ t := by
  obtain ⟨before, behind, rfl, -⟩ := List.lookup_eq_some_iff.1 h
  simp

/-- In a table with each key once, what is found under a key is what is entered under it. -/
theorem get?_of_mem {t : Table α} (hdistinct : t.keys.Nodup) {key : String} {v : α}
    (h : (key, v) ∈ t) : t.get? key = some v := by
  induction t with
  | nil => cases h
  | cons e t ih =>
    obtain ⟨k, w⟩ := e
    obtain ⟨hfresh, htail⟩ := nodup_keys_cons_iff.1 hdistinct
    rw [get?_cons]
    rcases List.mem_cons.1 h with heq | hmem
    · cases heq
      rw [if_pos rfl]
    · have hne : key ≠ k := by
        rintro rfl
        exact hfresh (List.mem_map_of_mem hmem)
      rw [if_neg hne, ih htail hmem]

/-- Tables with the same keys in the same order differ in what they hold under a key, if at all. -/
theorem ext_get? {t u : Table α} (hkeys : t.keys = u.keys) (hdistinct : t.keys.Nodup)
    (hget : ∀ key, t.get? key = u.get? key) : t = u := by
  induction t generalizing u with
  | nil => exact (List.map_eq_nil_iff.1 hkeys.symm).symm
  | cons e t ih =>
    obtain ⟨k, v⟩ := e
    cases u with
    | nil => cases hkeys
    | cons e' u =>
      obtain ⟨k', v'⟩ := e'
      obtain ⟨rfl, htail⟩ : k = k' ∧ keys t = keys u := List.cons.inj hkeys
      obtain ⟨hfresh, htailDistinct⟩ := nodup_keys_cons_iff.1 hdistinct
      have hvalue := hget k
      rw [get?_cons, get?_cons, if_pos rfl, if_pos rfl, Option.some.injEq] at hvalue
      have hrest : t = u := by
        apply ih htail htailDistinct
        intro key
        by_cases h : key = k
        · rw [h, (get?_eq_none_iff t k).2 hfresh, (get?_eq_none_iff u k).2 (htail ▸ hfresh)]
        · simpa [get?_cons, h] using hget key
      rw [hvalue, hrest]

theorem any_key_iff (t : Table α) (key : String) : t.any (·.1 == key) = true ↔ key ∈ t.keys := by
  simp [keys]

/-- A replaced entry is found under its key, and the others are found as before. -/
theorem get?_replace (t : Table α) (key key' : String) (value : α) :
    get? (t.map fun e => if e.1 == key then (key, value) else e) key' =
      if key' = key then (t.get? key).map fun _ => value else t.get? key' := by
  induction t with
  | nil => simp
  | cons e t ih =>
    obtain ⟨k, v⟩ := e
    rw [List.map_cons, get?_cons, get?_cons]
    by_cases hk : k = key
    · subst hk
      simp only [beq_self_eq_true, if_true, get?_cons, ih]
      by_cases h : key' = k <;> simp [h]
    · have hne : (k == key) = false := by simpa using hk
      simp only [hne, Bool.false_eq_true, if_false, get?_cons, ih]
      by_cases h : key' = key
      · subst h
        simp [Ne.symm hk]
      · simp [h]

/-- A key that is there keeps its place. -/
theorem put_of_get?_eq_some {t : Table α} {key : String} {v : α} (h : t.get? key = some v)
    (value : α) : t.put key value = t.map fun e => if e.1 == key then (key, value) else e :=
  if_pos ((any_key_iff t key).2 (List.mem_map_of_mem (mem_of_get? h)))

/-- A new key goes to the end. -/
theorem put_of_get?_eq_none {t : Table α} {key : String} (h : t.get? key = none) (value : α) :
    t.put key value = t ++ [(key, value)] :=
  if_neg fun hany => (get?_eq_none_iff t key).1 h ((any_key_iff t key).1 hany)

/-- What is put under a key is found there, and nothing else changes. -/
theorem get?_put (t : Table α) (key key' : String) (value : α) :
    (t.put key value).get? key' = if key' = key then some value else t.get? key' := by
  unfold put
  split
  · rename_i h
    rw [get?_replace]
    split
    · cases hget : t.get? key with
      | none => exact absurd ((any_key_iff t key).1 h) ((get?_eq_none_iff t key).1 hget)
      | some w => rfl
    · rfl
  · rename_i h
    rw [get?_append, get?_cons]
    by_cases hkey : key' = key
    · subst hkey
      have hnone : t.get? key' = none :=
        (get?_eq_none_iff t key').2 fun hmem => h ((any_key_iff t key').2 hmem)
      simp [hnone]
    · simp [hkey]

/-- A key that is there keeps its place, and a new one goes to the end. -/
theorem keys_put (t : Table α) (key : String) (value : α) :
    (t.put key value).keys = if key ∈ t.keys then t.keys else t.keys ++ [key] := by
  unfold put
  by_cases h : key ∈ t.keys
  · rw [if_pos ((any_key_iff t key).2 h), if_pos h]
    unfold keys
    rw [List.map_map]
    apply List.map_congr_left
    intro e _
    by_cases he : e.1 = key <;> simp [he]
  · rw [if_neg fun hany => h ((any_key_iff t key).1 hany), if_neg h]
    simp [keys]

theorem nodup_keys_put {t : Table α} (h : t.keys.Nodup) (key : String) (value : α) :
    (t.put key value).keys.Nodup := by
  rw [keys_put]
  by_cases hmem : key ∈ t.keys
  · rwa [if_pos hmem]
  · have hne : ∀ k ∈ t.keys, k ≠ key := fun k hk heq => hmem (heq ▸ hk)
    simpa [if_neg hmem, List.nodup_append, h] using hne

/-- Where a key is not there, there is nothing to replace under it. -/
theorem replace_of_get?_eq_none {t : Table α} {key : String} (h : t.get? key = none) (value : α) :
    (t.map fun e => if e.1 == key then (key, value) else e) = t := by
  have hfresh : ∀ e ∈ t, e.1 ≠ key := fun e he heq =>
    (get?_eq_none_iff t key).1 h (heq ▸ List.mem_map_of_mem he)
  exact (List.map_congr_left fun e he => by simp [hfresh e he]).trans (List.map_id t)

/-- Of two values that are put under one key, the second is all that is left. -/
theorem put_put (t : Table α) (key : String) (v w : α) :
    (t.put key v).put key w = t.put key w := by
  have hfound : (t.put key v).get? key = some v := by rw [get?_put, if_pos rfl]
  rw [put_of_get?_eq_some hfound]
  cases h : t.get? key with
  | some u =>
    rw [put_of_get?_eq_some h, put_of_get?_eq_some h, List.map_map]
    apply List.map_congr_left
    intro e _
    by_cases he : e.1 = key <;> simp [he]
  | none =>
    rw [put_of_get?_eq_none h, put_of_get?_eq_none h, List.map_append, replace_of_get?_eq_none h]
    simp

/-- Putting under a key what is there changes nothing. -/
theorem put_get? {t : Table α} (hdistinct : t.keys.Nodup) {key : String} {v : α}
    (h : t.get? key = some v) : t.put key v = t := by
  have hmem : key ∈ t.keys := List.mem_map_of_mem (mem_of_get? h)
  have hkeys : (t.put key v).keys = t.keys := by rw [keys_put, if_pos hmem]
  apply ext_get? hkeys (hkeys ▸ hdistinct)
  intro key'
  rw [get?_put]
  split
  · rename_i heq
    rw [heq, h]
  · rfl

/-- Two puts can change places where one of the keys is there: two new keys would stand in the
order of the puts. -/
theorem put_comm {t : Table α} {key key' : String} (hne : key ≠ key') {u : α}
    (h : t.get? key = some u) (v w : α) :
    (t.put key v).put key' w = (t.put key' w).put key v := by
  have hfound : (t.put key' w).get? key = some u := by rw [get?_put, if_neg hne, h]
  have hother : (t.put key v).get? key' = t.get? key' := by rw [get?_put, if_neg hne.symm]
  rw [put_of_get?_eq_some hfound]
  cases h' : t.get? key' with
  | some u' =>
    rw [h'] at hother
    rw [put_of_get?_eq_some hother, put_of_get?_eq_some h, put_of_get?_eq_some h', List.map_map,
      List.map_map]
    apply List.map_congr_left
    intro e _
    by_cases he : e.1 = key
    · simp [he, hne]
    · by_cases he' : e.1 = key' <;> simp [he, he', hne.symm]
  | none =>
    rw [h'] at hother
    rw [put_of_get?_eq_none hother, put_of_get?_eq_some h, put_of_get?_eq_none h', List.map_append]
    simp [hne.symm]

end Table

end DocPath

import DocPath.Proofs.Value.Regular
import DocPath.Proofs.Value.Write

/-!
# Stripping what was written

A write at a path of keys through objects changes one field in each of them, and a key that it adds
goes to the end. Stripping the path goes down the same fields and meets all others with no patterns
left. So it takes away what was written just as it takes away what stood there before, and it
changes nothing where the path leads nowhere.
-/

namespace DocPath.Value

variable {preferArrays : Bool} {patterns : List Path} {v : Option Value}

/-- A path meets an object at every place before its end. -/
def RunsThroughObjects (v : Option Value) (p : Path) : Prop :=
  ∀ r, r <+: p → r ≠ p → ∃ fields, v.bind (·.get? r) = some (object fields)

theorem runsThroughObjects_nil (v : Option Value) : RunsThroughObjects v [] := by
  intro r hr hne
  exact absurd (List.prefix_nil.1 hr) hne

theorem runsThroughObjects_cons {s : Segment} {p : Path} :
    RunsThroughObjects v (s :: p) ↔
      ∃ fields : Table Value, v = some (object fields) ∧
        RunsThroughObjects (fields.get? s.text) p := by
  have hcons : RunsThroughObjects v (s :: p) ↔
      (∃ fields, v = some (object fields)) ∧ RunsThroughObjects (v.bind (·.child? s)) p :=
    forall_before_cons (motive := fun u => ∃ fields, u = some (object fields))
  rw [hcons]
  constructor
  · rintro ⟨⟨fields, rfl⟩, hrest⟩
    exact ⟨fields, rfl, hrest⟩
  · rintro ⟨fields, rfl, hrest⟩
    exact ⟨⟨fields, rfl⟩, hrest⟩

/-! ## One object -/

theorem residual_key_self (name : String) (p : Path) : residual name [.key name :: p] = [p] := by
  simp [residual, Segment.acceptsKey, Segment.text]

theorem residual_key_of_ne {name key : String} (hname : name ≠ "*") (hne : key ≠ name) (p : Path) :
    residual key [.key name :: p] = [] := by
  simp [residual, Segment.acceptsKey, Segment.isWildcard, Segment.wildcard, Segment.text, hname,
    hne.symm]

/-- What is put under a key does not count if stripping leaves the same of it as of what was there
before. -/
theorem stripFields_put_of_same {fields : Table Value} (hdistinct : fields.keys.Nodup)
    {key : String} {x : Value}
    (h : strip (residual key patterns) x = (fields.get? key).bind (strip (residual key patterns))) :
    stripFields patterns (fields.put key x) = stripFields patterns fields := by
  cases hx : strip (residual key patterns) x with
  | none => exact stripFields_put_of_none hx fields
  | some kept =>
      have hthere : Table.get? (stripFields patterns fields) key = some kept := by
        rw [get?_stripFields, ← h, hx]
      rw [stripFields_put_of_some hx]
      exact Table.put_get? (hdistinct.sublist (keys_stripFields_sublist patterns fields)) hthere

/-- Fields stay as they are exactly if stripping leaves what they hold as it is, key by key. -/
theorem stripFields_eq_self_iff {fields : Table Value} (hdistinct : fields.keys.Nodup) :
    stripFields patterns fields = fields ↔
      ∀ key, (fields.get? key).bind (strip (residual key patterns)) = fields.get? key := by
  constructor
  · intro h key
    rw [← get?_stripFields, h]
  · intro h
    calc
      stripFields patterns fields
        = fields.filterMap fun e => (strip (residual e.1 patterns) e.2).map fun w => (e.1, w) :=
          stripFields_eq_filterMap patterns fields
      _ = fields.filterMap some := by
          apply List.filterMap_congr
          rintro ⟨key, w⟩ hmem
          have hkey := h key
          rw [Table.get?_of_mem hdistinct hmem, Option.bind_some] at hkey
          simp only [hkey, Option.map_some]
      _ = fields := List.filterMap_some

/-! ## Paths of keys -/

/-- Stripping a path that was written through objects leaves what stripping it before leaves. -/
theorem strip_set_keys (hdistinct : ∀ w ∈ v, w.HasDistinctKeys) {names : List String}
    (hobjects : RunsThroughObjects v (names.map .key)) (x : Value) :
    strip [names.map .key] (set preferArrays v (names.map .key) x) =
      v.bind (strip [names.map .key]) := by
  induction names generalizing v with
  | nil =>
      -- The path is the root, which goes with whatever is there.
      have hgone (w : Value) : strip [[]] w = none := strip_eq_none_of_mem List.mem_cons_self w
      exact (hgone _).trans (Option.bind_eq_none_iff.2 fun w _ => hgone w).symm
  | cons name names ih =>
      obtain ⟨fields, rfl, hrest⟩ := runsThroughObjects_cons.1 hobjects
      have hfields : (object fields).HasDistinctKeys := hdistinct _ rfl
      have hbelow : strip [names.map .key]
            (set preferArrays (Table.get? fields name) (names.map .key) x) =
          (Table.get? fields name).bind (strip [names.map .key]) :=
        ih (fun w hw => hfields.of_get? hw) hrest
      change strip _ (object (Table.put fields name
        (set preferArrays (Table.get? fields name) (names.map .key) x))) = strip _ (object fields)
      rw [strip_object rfl, strip_object rfl, stripFields_put_of_same hfields.1]
      rwa [List.map_cons, residual_key_self]

/-- Stripping a path through objects changes nothing exactly if nothing is there. -/
theorem strip_keys_eq_self_iff (hdistinct : ∀ w ∈ v, w.HasDistinctKeys) {names : List String}
    (hwildcard : "*" ∉ names) (hobjects : RunsThroughObjects v (names.map .key)) :
    v.bind (strip [names.map .key]) = v ↔ v.bind (·.get? (names.map .key)) = none := by
  induction names generalizing v with
  | nil =>
      have hgone (w : Value) : strip [[]] w = none := strip_eq_none_of_mem List.mem_cons_self w
      cases v with
      | none => simp
      | some w => simp [hgone, get?_nil]
  | cons name names ih =>
      obtain ⟨fields, rfl, hrest⟩ := runsThroughObjects_cons.1 hobjects
      obtain ⟨hname, hnames⟩ : "*" ≠ name ∧ "*" ∉ names := by simpa using hwildcard
      have hfields : (object fields).HasDistinctKeys := hdistinct _ rfl
      have hbelow : (Table.get? fields name).bind (strip [names.map .key]) =
            Table.get? fields name ↔
          (Table.get? fields name).bind (·.get? (names.map .key)) = none :=
        ih (fun w hw => hfields.of_get? hw) hnames hrest
      change strip _ (object fields) = some (object fields) ↔
        (Table.get? fields name).bind (·.get? (names.map .key)) = none
      rw [strip_object rfl, Option.some.injEq, object.injEq, stripFields_eq_self_iff hfields.1,
        ← hbelow, List.map_cons]
      constructor
      · intro h
        simpa only [residual_key_self] using h name
      · intro h key
        by_cases hkey : key = name
        · rw [hkey, residual_key_self]
          exact h
        · rw [residual_key_of_ne hname.symm hkey]
          cases Table.get? fields key with
          | none => rfl
          | some w => exact strip_nil w

/-- Stripping a path of keys through objects takes back a write there: what it leaves is what it
leaves of the value before, the order of fields included, and that is the value itself exactly if
the path read nothing. -/
theorem strip_set {v : Value} (hdistinct : v.HasDistinctKeys) {names : List String}
    (hwildcard : "*" ∉ names) (hobjects : RunsThroughObjects (some v) (names.map .key))
    (preferArrays : Bool) (x : Value) :
    strip [names.map .key] (set preferArrays (some v) (names.map .key) x) =
        strip [names.map .key] v ∧
      (strip [names.map .key] v = some v ↔ v.get? (names.map .key) = none) := by
  have hdistinct' : ∀ w ∈ some v, w.HasDistinctKeys := by
    rintro w ⟨⟩
    exact hdistinct
  exact ⟨strip_set_keys hdistinct' hobjects x,
    strip_keys_eq_self_iff hdistinct' hwildcard hobjects⟩

/-- Keys that look like indices, next to an array: one is there and loses its place, and another
one is new and leaves no trace. -/
theorem strip_set_numbered_keys :
    let v := object [("a", object [("0", null), ("1", array [null, null])]), ("1", bool true)]
    let names : List String := ["a", "0"]
    let names' : List String := ["a", "2"]
    v.HasDistinctKeys ∧ "*" ∉ names ∧ "*" ∉ names' ∧
      RunsThroughObjects (some v) (names.map .key) ∧
      RunsThroughObjects (some v) (names'.map .key) ∧
      strip [names.map .key] (set true (some v) (names.map .key) (string "x")) =
        strip [names.map .key] v ∧
      strip [names.map .key] v =
        some (object [("a", object [("1", array [null, null])]), ("1", bool true)]) ∧
      strip [names'.map .key] (set true (some v) (names'.map .key) (string "x")) = some v := by
  intro v names names'
  have hdistinct : v.HasDistinctKeys := by
    simp [v, HasDistinctKeys, FieldsHaveDistinctKeys, HaveDistinctKeys, Table.keys]
  have hwildcard : "*" ∉ names := by decide
  have hwildcard' : "*" ∉ names' := by decide
  have hobjects (name : String) :
      RunsThroughObjects (some v) (List.map Segment.key ["a", name]) :=
    runsThroughObjects_cons.2 ⟨_, rfl, runsThroughObjects_cons.2 ⟨_, rfl, runsThroughObjects_nil _⟩⟩
  obtain ⟨hback, -⟩ := strip_set hdistinct hwildcard (hobjects "0") true (string "x")
  obtain ⟨hback', hsame⟩ := strip_set hdistinct hwildcard' (hobjects "2") true (string "x")
  exact ⟨hdistinct, hwildcard, hwildcard', hobjects "0", hobjects "2", hback, by rfl,
    hback'.trans (hsame.2 (by rfl))⟩

-- Objects that a write has to make on its way stay behind.
example :
    let p : Path := [.key "a", .key "b"]
    strip [p] (set true (some (object [])) p null) = some (object [("a", object [])]) ∧
      strip [p] (object []) = some (object []) := by
  exact ⟨rfl, rfl⟩

end DocPath.Value

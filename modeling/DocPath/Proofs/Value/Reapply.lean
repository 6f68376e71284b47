import DocPath.Proofs.Path.Pattern
import DocPath.Proofs.Value.Layers

/-!
# Laying an overlay twice

An overlay laid on itself is itself, unless an array in it is joined with itself. Layers merge in
either order when the upper two are the same, as nothing of another kind can then stand between a
container and one of its kind above. So an overlay that is laid on a base twice is, in the second
place, laid on itself.
-/

namespace DocPath.Value

variable {joining : List Path} {path : Path}

/-- A value holds an array with elements at a place below keys of objects. -/
inductive HoldsElementsAt : Path → Value → Prop where
  | here (v : Value) (elements : List Value) : HoldsElementsAt [] (array (v :: elements))
  | under {fields : Table Value} {key : String} {v : Value} {place : Path}
      (entry : fields.get? key = some v) (holds : HoldsElementsAt place v) :
      HoldsElementsAt (.key key :: place) (object fields)

/-- No pattern accepts the place of an array with elements in a value at a path. -/
def RepeatsNone (joining : List Path) (path : Path) (v : Value) : Prop :=
  ∀ place, HoldsElementsAt place v → ∀ p ∈ joining, p.accepts (path ++ place) = false

theorem RepeatsNone.not_any {v : Value} {elements : List Value}
    (h : RepeatsNone joining path (array (v :: elements))) :
    joining.any (·.accepts path) = false :=
  any_accepts_of_refused h (.here v elements)

theorem RepeatsNone.under {fields : Table Value} (h : RepeatsNone joining path (object fields))
    {key : String} {v : Value} (hget : fields.get? key = some v) :
    RepeatsNone joining (path ++ [.key key]) v :=
  refused_below h fun _ hholds => .under hget hholds

/-! ## A value on itself -/

theorem overlay_array_self {elements : List Value}
    (h : RepeatsNone joining path (array elements)) :
    overlay joining path (array elements) (array elements) = array elements := by
  rw [overlay_array]
  cases elements with
  -- An array without elements may be joined with itself.
  | nil => simp
  | cons v elements => simp [h.not_any]

theorem overlayFields_self {fields : Table Value} (hdistinct : fields.keys.Nodup)
    (h : ∀ key v, fields.get? key = some v → overlay joining (path ++ [.key key]) v v = v) :
    overlayFields joining path fields fields = fields := by
  have hkeys : (overlayFields joining path fields fields).keys = fields.keys := by
    have hnone : fields.keys.filter (· ∉ fields.keys) = [] := by
      simp [List.filter_eq_nil_iff]
    rw [keys_overlayFields fields hdistinct, hnone, List.append_nil]
  apply Table.ext_get? hkeys (hkeys ▸ hdistinct)
  intro key
  rw [get?_overlayFields fields hdistinct]
  cases hget : fields.get? key with
  | none => rfl
  | some v => rw [mergeAt_some, h key v hget]

/-- A value laid on itself is itself where no array with elements is joined. -/
theorem overlay_self {v : Value} (hdistinct : v.HasDistinctKeys)
    (h : RepeatsNone joining path v) : overlay joining path v v = v := by
  induction v using childInduction generalizing path with
  | scalar v hscalar => exact overlay_eq_top (.inl hscalar)
  | array elements _ => exact overlay_array_self h
  | object fields ih =>
      rw [overlay_object, overlayFields_self hdistinct.1]
      intro key v hget
      exact ih (key, v) (Table.mem_of_get? hget) (hdistinct.of_get? hget) (h.under hget)

/-! ## Twice on a base -/

/-- What stands between two containers of one kind is not the upper one of them. -/
theorem Interposed.ne {low mid high : Value} (h : Interposed low mid high) : mid ≠ high := by
  induction h with
  | here _ same other =>
      rintro rfl
      exact other same
  | under _ inMid inHigh _ ih =>
      rintro ⟨⟩
      exact ih (Option.some.inj (inMid.symm.trans inHigh))

theorem overlay_overlay_self {base top : Value} (hbase : base.HasDistinctKeys)
    (htop : top.HasDistinctKeys) (h : RepeatsNone joining path top) :
    overlay joining path (overlay joining path base top) top = overlay joining path base top := by
  rw [overlay_assoc hbase htop htop fun hbetween => hbetween.ne rfl, overlay_self htop h]

/-- An overlay that was laid on a base changes nothing when it is laid on once more, the order of
fields included, as long as no pattern joins an array with elements that it holds below keys. So
nothing changes when a value is laid on itself. -/
theorem merge_merge_self {joining : List Path} {base top : Option Value}
    (hbase : ∀ v ∈ base, v.HasDistinctKeys) (htop : ∀ v ∈ top, v.HasDistinctKeys)
    (h : ∀ v ∈ top, RepeatsNone joining [] v) :
    merge joining (merge joining base top) top = merge joining base top ∧
      merge joining top top = top := by
  have hself : merge joining top top = top := by
    cases top with
    | none => rfl
    | some v => exact congrArg some (overlay_self (htop v rfl) (h v rfl))
  refine ⟨?_, hself⟩
  cases base with
  | none =>
      have hfirst : merge joining none top = top := mergeAt_none_left top
      rw [hfirst, hself]
  | some base =>
      cases top with
      | none => rfl
      | some top =>
          exact congrArg some (overlay_overlay_self (hbase base rfl) (htop top rfl) (h top rfl))

/-- A base with more elements than the overlay and with another kind under a key. The patterns
accept the places of an array without elements and of one inside another array. -/
theorem merge_merge_self_unjoined :
    let joining : List Path := [[.key "tags"], [.key "rows", .key "0"]]
    let base := object [("port", null), ("tags", array [string "a"]),
      ("rows", array [null, bool true]), ("log", array [null])]
    let top := object [("rows", array [array [string "b"]]), ("log", object [("level", null)]),
      ("tags", array [])]
    base.HasDistinctKeys ∧ top.HasDistinctKeys ∧ RepeatsNone joining [] top ∧
      merge joining (merge joining (some base) (some top)) (some top) =
        merge joining (some base) (some top) ∧
      merge joining (some top) (some top) = some top ∧
      merge joining (some base) (some top) =
        some (object [("port", null), ("tags", array [string "a"]),
          ("rows", array [array [string "b"], bool true]), ("log", object [("level", null)])]) := by
  intro joining base top
  have hbase : base.HasDistinctKeys := by
    simp [base, HasDistinctKeys, FieldsHaveDistinctKeys, HaveDistinctKeys, Table.keys]
  have htop : top.HasDistinctKeys := by
    simp [top, HasDistinctKeys, FieldsHaveDistinctKeys, HaveDistinctKeys, Table.keys]
  have hplace : ∀ place, HoldsElementsAt place top → place = [.key "rows"] := by
    intro place hholds
    change HoldsElementsAt place (object _) at hholds
    cases hholds with
    | @under _ key _ _ entry holds =>
        by_cases hrows : key = "rows"
        · simp [Table.get?_cons, hrows] at entry
          subst hrows entry
          cases holds
          rfl
        · by_cases hlog : key = "log"
          · simp [Table.get?_cons, hlog] at entry
            subst entry
            cases holds with
            | @under _ key _ _ entry holds =>
                simp [Table.get?_cons] at entry
                obtain ⟨-, rfl⟩ := entry
                cases holds
          · simp [Table.get?_cons, hrows, hlog] at entry
            obtain ⟨-, rfl⟩ := entry
            cases holds
  have hrepeats : RepeatsNone joining [] top := by
    intro place hholds p hp
    rw [hplace place hholds]
    simp only [joining, List.mem_cons, List.not_mem_nil, or_false] at hp
    rcases hp with rfl | rfl
    · rfl
    · rfl
  have hbases : ∀ v ∈ some base, v.HasDistinctKeys := by
    rintro v ⟨⟩
    exact hbase
  have htops : ∀ v ∈ some top, v.HasDistinctKeys := by
    rintro v ⟨⟩
    exact htop
  have hjoins : ∀ v ∈ some top, RepeatsNone joining [] v := by
    rintro v ⟨⟩
    exact hrepeats
  obtain ⟨hagain, hself⟩ := merge_merge_self hbases htops hjoins
  exact ⟨hbase, htop, hrepeats, hagain, hself, by rfl⟩

-- An array that is joined grows with each time.
example :
    let top := some (array [null])
    merge [[]] (merge [[]] none top) top = some (array [null, null]) := by
  rfl

end DocPath.Value

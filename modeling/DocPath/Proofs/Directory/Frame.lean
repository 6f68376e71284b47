import DocPath.Directory.Interruption

/-!
# What steps leave alone

Creating a file, writing at its end and moving it onto a name are steps that leave the directories
as they are, so a name leads to one location all the way. Such steps change files of their own
names only, and so does every run of them, complete or not, and wherever it is interrupted.
-/

namespace DocPath

/-- The step creates, extends or moves files of these names. -/
inductive Step.Within (names : List String) : Step → Prop where
  | create {name : String} (mem : name ∈ names) : Within names (.create name)
  | append {name : String} {content : Bytes} (mem : name ∈ names) :
      Within names (.append name content)
  | rename {source target : String} (mem : source ∈ names) (mem' : target ∈ names) :
      Within names (.rename source target)

theorem Step.Within.mono {names names' : List String} {s : Step} (h : s.Within names)
    (hsub : names ⊆ names') : s.Within names' := by
  cases h with
  | create hname => exact .create (hsub hname)
  | append hname => exact .append (hsub hname)
  | rename hsource htarget => exact .rename (hsub hsource) (hsub htarget)

namespace Directory

variable {d d' d'' : Directory} {names : List String}

/-! ## Directories that stay -/

/-- The same places hold directories, and names are followed from the same place. -/
structure SameDirectories (d d' : Directory) : Prop where
  here_eq : d'.here = d.here
  get?_iff : ∀ place, d'.get? place = some .directory ↔ d.get? place = some .directory

theorem SameDirectories.refl (d : Directory) : SameDirectories d d := ⟨rfl, fun _ => Iff.rfl⟩

theorem SameDirectories.trans (h : SameDirectories d d') (h' : SameDirectories d' d'') :
    SameDirectories d d'' :=
  ⟨h'.here_eq.trans h.here_eq, fun place => (h'.get?_iff place).trans (h.get?_iff place)⟩

theorem SameDirectories.follow? (h : SameDirectories d d') (place : Location)
    (parts : List String) : d'.follow? place parts = d.follow? place parts := by
  induction parts generalizing place with
  | nil => rfl
  | cons part parts ih => simp only [Directory.follow?, ne_eq, h.get?_iff place, ih]

/-- A name keeps its location as long as the directories stay. -/
theorem SameDirectories.locate? (h : SameDirectories d d') (name : String) :
    d'.locate? name = d.locate? name := by
  simp only [Directory.locate?, route, h.here_eq, h.follow?]

theorem find?_of_locate? {name : String} {place : Location} (hplace : d.locate? name = some place) :
    d.find? name = d.get? place := by
  rw [Directory.find?, hplace, Option.bind_some]

theorem SameDirectories.find? (h : SameDirectories d d') {name : String} {place : Location}
    (hplace : d.locate? name = some place) : d'.find? name = d'.get? place :=
  find?_of_locate? ((h.locate? name).trans hplace)

theorem sameDirectories_put_file {place : Location} (h : d.get? place ≠ some .directory)
    (content : Bytes) : SameDirectories d (d.put place (.file content)) := by
  refine ⟨rfl, fun place' => ?_⟩
  by_cases htop : place' = []
  · simp [htop]
  · rw [get?_put d place place' _ htop]
    split
    · rename_i heq
      simp [heq, h]
    · rfl

theorem sameDirectories_erase {place : Location} (h : d.get? place ≠ some .directory) :
    SameDirectories d (d.erase place) := by
  refine ⟨rfl, fun place' => ?_⟩
  by_cases htop : place' = []
  · simp [htop]
  · rw [get?_erase d place place' htop]
    split
    · rename_i heq
      simp [heq, h]
    · rfl

/-- What is put where no directory is can be found there. -/
theorem get?_put_self {place : Location} (h : d.get? place ≠ some .directory) (e : Entry) :
    (d.put place e).get? place = some e := by
  have htop : place ≠ [] := by
    rintro rfl
    exact h (get?_top d)
  rw [get?_put d place place e htop, if_pos rfl]

theorem ne_directory_of_file {place : Location} {content : Bytes}
    (h : d.get? place = some (.file content)) : d.get? place ≠ some .directory := by
  rw [h]
  exact fun heq => by cases heq

/-! ## Steps -/

theorem create?_eq_some_iff {name : String} :
    d.create? name = some d' ↔ ∃ place, d.locate? name = some place ∧
      d.get? place ≠ some .directory ∧ d.put place (.file []) = d' := by
  simp [create?, Option.bind_eq_some_iff]

theorem append?_eq_some_iff {name : String} {content : Bytes} :
    d.append? name content = some d' ↔ ∃ place old, d.locate? name = some place ∧
      d.get? place = some (.file old) ∧ d.put place (.file (old ++ content)) = d' := by
  rw [append?, Option.bind_eq_bind, Option.bind_eq_some_iff]
  refine exists_congr fun place => ?_
  rcases d.get? place with _ | _ | old <;> simp

theorem append?_of_file {name : String} {place : Location} {old : Bytes}
    (hplace : d.locate? name = some place) (hold : d.get? place = some (.file old))
    (content : Bytes) :
    d.append? name content = some (d.put place (.file (old ++ content))) :=
  append?_eq_some_iff.2 ⟨place, old, hplace, hold, rfl⟩

theorem rename?_eq_some_iff {source target : String} :
    d.rename? source target = some d' ↔ ∃ place place' content,
      d.locate? source = some place ∧ d.locate? target = some place' ∧
        d.get? place = some (.file content) ∧ d.get? place' ≠ some .directory ∧
        (d.erase place).put place' (.file content) = d' := by
  simp only [rename?, Option.bind_eq_bind, Option.bind_eq_some_iff, exists_and_left]
  refine exists_congr fun place => and_congr_right fun _ =>
    exists_congr fun place' => and_congr_right fun _ => ?_
  rcases d.get? place with _ | _ | content <;> rcases d.get? place' with _ | _ | old <;> simp

/-! ## Changes -/

/-- Directories stay, and so does every file that none of the names leads to. -/
structure ChangesOnly (names : List String) (d d' : Directory) : Prop where
  sameDirectories : SameDirectories d d'
  get?_eq : ∀ place, (∀ name ∈ names, d.locate? name ≠ some place) →
    d'.get? place = d.get? place

theorem ChangesOnly.refl (names : List String) (d : Directory) : ChangesOnly names d d :=
  ⟨.refl d, fun _ _ => rfl⟩

theorem ChangesOnly.trans (h : ChangesOnly names d d') (h' : ChangesOnly names d' d'') :
    ChangesOnly names d d'' := by
  refine ⟨h.sameDirectories.trans h'.sameDirectories, fun place hplace => ?_⟩
  rw [h'.get?_eq place, h.get?_eq place hplace]
  intro name hname
  rw [h.sameDirectories.locate?]
  exact hplace name hname

theorem changesOnly_put_file {name : String} {place : Location} (hname : name ∈ names)
    (hplace : d.locate? name = some place) (hfree : d.get? place ≠ some .directory)
    (content : Bytes) : ChangesOnly names d (d.put place (.file content)) := by
  refine ⟨sameDirectories_put_file hfree content, fun place' hother => ?_⟩
  by_cases htop : place' = []
  · simp [htop]
  · rw [get?_put d place place' _ htop, if_neg]
    rintro rfl
    exact hother name hname hplace

theorem changesOnly_erase {name : String} {place : Location} (hname : name ∈ names)
    (hplace : d.locate? name = some place) (hfree : d.get? place ≠ some .directory) :
    ChangesOnly names d (d.erase place) := by
  refine ⟨sameDirectories_erase hfree, fun place' hother => ?_⟩
  by_cases htop : place' = []
  · simp [htop]
  · rw [get?_erase d place place' htop, if_neg]
    rintro rfl
    exact hother name hname hplace

theorem changesOnly_of_step? {s : Step} (hs : s.Within names) (h : d.step? s = some d') :
    ChangesOnly names d d' := by
  cases hs with
  | create hname =>
      obtain ⟨place, hplace, hfree, rfl⟩ := create?_eq_some_iff.1 h
      exact changesOnly_put_file hname hplace hfree []
  | append hname =>
      obtain ⟨place, old, hplace, hold, rfl⟩ := append?_eq_some_iff.1 h
      exact changesOnly_put_file hname hplace (ne_directory_of_file hold) _
  | rename hsource htarget =>
      obtain ⟨place, place', content, hplace, hplace', hfile, hfree, rfl⟩ :=
        rename?_eq_some_iff.1 h
      have herase := changesOnly_erase hsource hplace (ne_directory_of_file hfile)
      have hsame := herase.sameDirectories
      exact herase.trans (changesOnly_put_file htarget ((hsame.locate? _).trans hplace')
        (mt (hsame.get?_iff place').1 hfree) content)

/-- A run ends in a state in which it can be left. -/
theorem leaves_run (d : Directory) (steps : List Step) : Leaves d steps (d.run steps).1 := by
  induction steps generalizing d with
  | nil => exact .stop d []
  | cons s steps ih =>
      rw [run]
      cases hstep : d.step? s with
      | none => exact .stop d (s :: steps)
      | some next => exact .next hstep (ih next)

/-- Steps change files of their names only, wherever they are interrupted. -/
theorem changesOnly_of_leaves {steps : List Step} (h : Leaves d steps d')
    (hsteps : ∀ s ∈ steps, s.Within names) : ChangesOnly names d d' := by
  induction h with
  | stop d => exact .refl names d
  | @partly _ _ name content start _ _ done =>
      -- The start of what is written is written by a step of the same name.
      have hwithin : (Step.append name start).Within names := by
        cases hsteps (.append name content) List.mem_cons_self with
        | append hname => exact .append hname
      exact changesOnly_of_step? hwithin done
  | next done _ ih =>
      have hfirst := changesOnly_of_step? (hsteps _ List.mem_cons_self) done
      exact hfirst.trans (ih fun s hs => hsteps s (List.mem_cons_of_mem _ hs))

/-- A run changes files of the names in its steps only, wherever it stops. -/
theorem changesOnly_run {steps : List Step} (h : ∀ s ∈ steps, s.Within names) (d : Directory) :
    ChangesOnly names d (d.run steps).1 :=
  changesOnly_of_leaves (leaves_run d steps) h

end Directory

end DocPath

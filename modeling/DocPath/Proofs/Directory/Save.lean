import DocPath.Proofs.Directory.Frame

/-!
# What a replacing run leaves behind

A run that creates a file, appends to it and moves it onto a name is complete exactly if both names
can be those of files, and then leaves under the second one what was appended, nothing under the
first one, and everything else as it was. The move comes last, so a run that stops before its end
has changed the file of the first name only.
-/

namespace DocPath.Directory

variable {d d' : Directory} {temporary name : String}

/-- The name leads to a place where no directory is. -/
def TakesFile (d : Directory) (name : String) : Prop :=
  ∃ place, d.locate? name = some place ∧ d.get? place ≠ some .directory

theorem SameDirectories.takesFile_iff (h : SameDirectories d d') (name : String) :
    d'.TakesFile name ↔ d.TakesFile name := by
  simp only [TakesFile, h.locate?, ne_eq, h.get?_iff]

/-! ## Runs -/

theorem run_cons_iff {s : Step} {steps : List Step} :
    d.run (s :: steps) = (d', true) ↔
      ∃ next, d.step? s = some next ∧ next.run steps = (d', true) := by
  rw [run]
  cases d.step? s with
  | none => simp
  | some next => simp

/-- A run goes on where an earlier one is complete. -/
theorem run_append (d : Directory) (steps rest : List Step) :
    d.run (steps ++ rest) =
      if (d.run steps).2 then (d.run steps).1.run rest else d.run steps := by
  induction steps generalizing d with
  | nil => simp [run]
  | cons s steps ih =>
      rw [List.cons_append, run, run]
      cases d.step? s with
      | none => simp
      | some next => exact ih next

/-- With one more step a run is complete if it was before and this step can be done. -/
theorem run_concat_iff {steps : List Step} {s : Step} :
    d.run (steps ++ [s]) = (d', true) ↔
      ∃ mid, d.run steps = (mid, true) ∧ mid.step? s = some d' := by
  rw [run_append]
  obtain ⟨mid, done, hrun⟩ : ∃ mid done, d.run steps = (mid, done) := ⟨_, _, rfl⟩
  rw [hrun]
  cases done with
  | false => simp
  | true =>
      rw [if_pos rfl, run_cons_iff]
      simp [run]

/-- Where the last step is not done, it is as if it were not there. -/
theorem run_concat_eq_false {steps : List Step} {s : Step}
    (h : d.run (steps ++ [s]) = (d', false)) : (d.run steps).1 = d' := by
  rw [run_append] at h
  split at h
  · rw [run] at h
    cases hstep : (d.run steps).1.step? s with
    | none =>
        rw [hstep] at h
        exact congrArg Prod.fst h
    | some next =>
        rw [hstep] at h
        cases h
  · exact congrArg Prod.fst h

/-- Parts that are appended one after the other stand at the end of the file in order. -/
theorem run_map_append {place : Location} {old : Bytes} (hplace : d.locate? name = some place)
    (hold : d.get? place = some (.file old)) (parts : List Bytes) :
    ∃ next, d.run (parts.map (.append name)) = (next, true) ∧
      next.get? place = some (.file (old ++ parts.flatten)) := by
  induction parts generalizing d old with
  | nil => exact ⟨d, rfl, by simpa using hold⟩
  | cons content parts ih =>
      have hfree := ne_directory_of_file hold
      have hsame := sameDirectories_put_file hfree (old ++ content)
      obtain ⟨next, hrun, hfile⟩ :=
        ih ((hsame.locate? name).trans hplace) (get?_put_self hfree (.file (old ++ content)))
      refine ⟨next, run_cons_iff.2 ⟨_, append?_of_file hplace hold content, hrun⟩, ?_⟩
      rw [hfile, List.flatten_cons, List.append_assoc]

/-! ## A new file -/

/-- The steps that put parts in a new file. -/
def fillSteps (temporary : String) (parts : List Bytes) : List Step :=
  .create temporary :: parts.map (.append temporary)

theorem within_of_mem_fillSteps {parts : List Bytes} {s : Step}
    (h : s ∈ fillSteps temporary parts) : s.Within [temporary] := by
  rcases List.mem_cons.1 h with rfl | h
  · exact .create List.mem_cons_self
  · obtain ⟨content, -, rfl⟩ := List.mem_map.1 h
    exact .append List.mem_cons_self

/-- A new file can be filled where a file can be, and holds the parts in order. -/
theorem run_fillSteps {place : Location} (hplace : d.locate? temporary = some place)
    (hfree : d.get? place ≠ some .directory) (parts : List Bytes) :
    ∃ filled, d.run (fillSteps temporary parts) = (filled, true) ∧
      ChangesOnly [temporary] d filled ∧ filled.get? place = some (.file parts.flatten) := by
  have hsame := sameDirectories_put_file hfree []
  obtain ⟨filled, happend, hfile⟩ := run_map_append ((hsame.locate? temporary).trans hplace)
    (get?_put_self hfree (.file [])) parts
  have hcreate : d.step? (.create temporary) = some (d.put place (.file [])) :=
    create?_eq_some_iff.2 ⟨place, hplace, hfree, rfl⟩
  have hrun : d.run (fillSteps temporary parts) = (filled, true) :=
    run_cons_iff.2 ⟨_, hcreate, happend⟩
  have hframe : ChangesOnly [temporary] d (d.run (fillSteps temporary parts)).1 :=
    changesOnly_run (fun _ => within_of_mem_fillSteps) d
  rw [hrun] at hframe
  exact ⟨filled, hrun, hframe, hfile⟩

/-- A new file can be filled only where a file can be. -/
theorem exists_of_run_fillSteps {parts : List Bytes}
    (h : d.run (fillSteps temporary parts) = (d', true)) :
    ∃ place, d.locate? temporary = some place ∧ d.get? place ≠ some .directory ∧
      ChangesOnly [temporary] d d' ∧ d'.get? place = some (.file parts.flatten) := by
  obtain ⟨_, hcreate, -⟩ := run_cons_iff.1 h
  obtain ⟨place, hplace, hfree, -⟩ := create?_eq_some_iff.1 hcreate
  obtain ⟨filled, hrun, hframe, hfile⟩ := run_fillSteps hplace hfree parts
  cases h.symm.trans hrun
  exact ⟨place, hplace, hfree, hframe, hfile⟩

/-! ## A file in place of another -/

/-- The steps that put parts under a name by way of a temporary file. -/
def replaceSteps (temporary name : String) (parts : List Bytes) : List Step :=
  fillSteps temporary parts ++ [.rename temporary name]

theorem within_of_mem_replaceSteps {parts : List Bytes} {s : Step}
    (h : s ∈ replaceSteps temporary name parts) : s.Within [temporary, name] := by
  rcases List.mem_append.1 h with h | h
  · exact (within_of_mem_fillSteps h).mono (by simp)
  · rw [List.mem_singleton.1 h]
    exact .rename (by simp) (by simp)

/-- The file of the name has this content now, that of the temporary name is gone, unless both names
lead to one place, and nothing else has changed. -/
structure Replaces (temporary name : String) (content : Bytes) (d d' : Directory) : Prop where
  sameDirectories : SameDirectories d d'
  get?_eq : ∃ place target, d.locate? temporary = some place ∧ d.locate? name = some target ∧
    ∀ q, d'.get? q =
      if q = target then some (.file content) else if q = place then none else d.get? q

theorem Replaces.find? {content : Bytes} (h : Replaces temporary name content d d') :
    d'.find? name = some (.file content) := by
  obtain ⟨place, target, -, htarget, hget⟩ := h.get?_eq
  rw [h.sameDirectories.find? htarget, hget, if_pos rfl]

/-- Nothing is left under the temporary name, unless both names lead to one place. -/
theorem Replaces.find?_temporary {content : Bytes} (h : Replaces temporary name content d d')
    (hplaces : d.locate? temporary ≠ d.locate? name) : d'.find? temporary = none := by
  obtain ⟨place, target, hplace, htarget, hget⟩ := h.get?_eq
  have hne : place ≠ target := by
    rintro rfl
    exact hplaces (hplace.trans htarget.symm)
  rw [h.sameDirectories.find? hplace, hget, if_neg hne, if_pos rfl]

theorem replaces_rename {place target : Location} {content : Bytes}
    (hplace : d.locate? temporary = some place) (hfile : d.get? place = some (.file content))
    (htarget : d.locate? name = some target) (hfree : d.get? target ≠ some .directory) :
    Replaces temporary name content d ((d.erase place).put target (.file content)) := by
  have hsource := ne_directory_of_file hfile
  have herased : (d.erase place).get? target ≠ some .directory :=
    mt ((sameDirectories_erase hsource).get?_iff target).1 hfree
  refine ⟨(sameDirectories_erase hsource).trans (sameDirectories_put_file herased content),
    place, target, hplace, htarget, fun q => ?_⟩
  by_cases htop : q = []
  · subst htop
    have hne : [] ≠ place := by
      rintro rfl
      exact hsource (get?_top d)
    have hne' : [] ≠ target := by
      rintro rfl
      exact hfree (get?_top d)
    rw [if_neg hne', if_neg hne, get?_top, get?_top]
  · rw [get?_put _ _ _ _ htop, get?_erase _ _ _ htop]

/-- What is put in the temporary file before does not show afterwards. -/
theorem Replaces.of_changesOnly {filled : Directory} {content : Bytes}
    (h : ChangesOnly [temporary] d filled) (h' : Replaces temporary name content filled d') :
    Replaces temporary name content d d' := by
  obtain ⟨place, target, hplace, htarget, hget⟩ := h'.get?_eq
  rw [h.sameDirectories.locate?] at hplace htarget
  refine ⟨h.sameDirectories.trans h'.sameDirectories, place, target, hplace, htarget,
    fun q => ?_⟩
  rw [hget]
  by_cases hq : q = place
  · rw [if_pos hq, if_pos hq]
  · have hother : filled.get? q = d.get? q := by
      refine h.get?_eq q fun name' hname' heq => hq ?_
      rw [List.mem_singleton.1 hname', hplace] at heq
      exact (Option.some.inj heq).symm
    rw [if_neg hq, if_neg hq, hother]

/-- Where both names can be those of files, all steps are done. -/
theorem run_replaceSteps (htemporary : d.TakesFile temporary) (hname : d.TakesFile name)
    (parts : List Bytes) :
    ∃ d', d.run (replaceSteps temporary name parts) = (d', true) := by
  obtain ⟨place, hplace, hfree⟩ := htemporary
  obtain ⟨filled, hrun, hframe, hfile⟩ := run_fillSteps hplace hfree parts
  have hsame := hframe.sameDirectories
  obtain ⟨target, htarget, hfree'⟩ := (hsame.takesFile_iff name).2 hname
  have hrename : filled.step? (.rename temporary name) =
      some ((filled.erase place).put target (.file parts.flatten)) :=
    rename?_eq_some_iff.2
      ⟨place, target, _, (hsame.locate? temporary).trans hplace, htarget, hfile, hfree', rfl⟩
  exact ⟨_, run_concat_iff.2 ⟨filled, hrun, hrename⟩⟩

/-- All steps can be done only if both names can be those of files. -/
theorem takesFile_of_run_replaceSteps {parts : List Bytes}
    (h : d.run (replaceSteps temporary name parts) = (d', true)) :
    d.TakesFile temporary ∧ d.TakesFile name := by
  obtain ⟨filled, hfill, hrename⟩ := run_concat_iff.1 h
  obtain ⟨place, hplace, hfree, hframe, -⟩ := exists_of_run_fillSteps hfill
  obtain ⟨_, target, _, -, htarget, -, hfree', -⟩ := rename?_eq_some_iff.1 hrename
  exact ⟨⟨place, hplace, hfree⟩,
    (hframe.sameDirectories.takesFile_iff name).1 ⟨target, htarget, hfree'⟩⟩

/-- After all steps the parts are found under the name. -/
theorem replaces_of_run_replaceSteps {parts : List Bytes}
    (h : d.run (replaceSteps temporary name parts) = (d', true)) :
    Replaces temporary name parts.flatten d d' := by
  obtain ⟨filled, hfill, hrename⟩ := run_concat_iff.1 h
  obtain ⟨place, hplace, -, hframe, hfile⟩ := exists_of_run_fillSteps hfill
  obtain ⟨source, target, content, hsource, htarget, hcontent, hfree, rfl⟩ :=
    rename?_eq_some_iff.1 hrename
  rw [hframe.sameDirectories.locate?, hplace] at hsource
  cases hsource
  cases hfile.symm.trans hcontent
  exact .of_changesOnly hframe
    (replaces_rename ((hframe.sameDirectories.locate? _).trans hplace) hfile htarget hfree)

/-- A run that is not complete has changed the temporary file only. -/
theorem changesOnly_of_run_replaceSteps {parts : List Bytes}
    (h : d.run (replaceSteps temporary name parts) = (d', false)) :
    ChangesOnly [temporary] d d' := by
  rw [← run_concat_eq_false h]
  exact changesOnly_run (fun _ => within_of_mem_fillSteps) d

end DocPath.Directory

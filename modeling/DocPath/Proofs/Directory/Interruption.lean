import DocPath.Proofs.Directory.Save

/-!
# What an interrupted replacement leaves behind

A run that fills a new file and moves it onto a name can be left at any time. Under that name there
is then what was there before, or all that was to be written. Only where both names lead to one
place is the file of the name itself filled, and any start of what was to be written can be left.
-/

namespace DocPath.Directory

variable {d d' : Directory} {temporary name : String}

/-! ## Parts of runs -/

/-- What a run leaves is left by its first steps, or by the others behind all of these. -/
theorem leaves_append_iff {steps rest : List Step} :
    Leaves d (steps ++ rest) d' ↔
      Leaves d steps d' ∨ ∃ mid, d.run steps = (mid, true) ∧ Leaves mid rest d' := by
  constructor
  · intro h
    induction steps generalizing d with
    | nil => exact .inr ⟨d, rfl, h⟩
    | cons s steps ih =>
        cases h with
        | stop => exact .inl (.stop _ _)
        | partly begins done => exact .inl (.partly begins done)
        | next done h =>
            rcases ih h with hleaves | ⟨mid, hrun, hleaves⟩
            · exact .inl (.next done hleaves)
            · exact .inr ⟨mid, run_cons_iff.2 ⟨_, done, hrun⟩, hleaves⟩
  · rintro (h | ⟨mid, hrun, h⟩)
    · induction h with
      | stop d => exact .stop d _
      | partly begins done => exact .partly begins done
      | next done _ ih => exact .next done ih
    · induction steps generalizing d with
      | nil =>
          cases hrun
          exact h
      | cons s steps ih =>
          obtain ⟨next, hstep, hrun⟩ := run_cons_iff.1 hrun
          exact .next hstep (ih hrun)

theorem leaves_nil_iff : Leaves d [] d' ↔ d' = d := by
  constructor
  · intro h
    cases h
    rfl
  · rintro rfl
    exact .stop _ _

/-- A move is done as a whole or not at all. -/
theorem leaves_rename_iff :
    Leaves d [.rename temporary name] d' ↔
      d' = d ∨ d.step? (.rename temporary name) = some d' := by
  constructor
  · intro h
    cases h with
    | stop => exact .inl rfl
    | next done h =>
        cases h
        exact .inr done
  · rintro (rfl | hstep)
    · exact .stop _ _
    · exact .next hstep (.stop _ _)

/-! ## Files that are filled -/

/-- Where writing parts at the end of a file is left, a start of them stands there. -/
theorem leaves_map_append {place : Location} {old : Bytes} {parts : List Bytes}
    (hplace : d.locate? name = some place) (hold : d.get? place = some (.file old))
    (h : Leaves d (parts.map (.append name)) d') :
    ∃ start, start <+: parts.flatten ∧ d'.get? place = some (.file (old ++ start)) := by
  induction parts generalizing d old with
  | nil =>
      cases h
      exact ⟨[], List.prefix_rfl, by simpa using hold⟩
  | cons content parts ih =>
      have hfree := ne_directory_of_file hold
      rw [List.flatten_cons]
      cases h with
      | stop => exact ⟨[], List.nil_prefix, by simpa using hold⟩
      | @partly _ _ _ _ start _ begins done =>
          cases (append?_of_file hplace hold start).symm.trans done
          exact ⟨start, begins.trans (List.prefix_append content _), get?_put_self hfree _⟩
      | next done h =>
          cases (append?_of_file hplace hold content).symm.trans done
          have hsame := sameDirectories_put_file hfree (old ++ content)
          obtain ⟨start, hstart, hfile⟩ :=
            ih ((hsame.locate? name).trans hplace) (get?_put_self hfree _) h
          refine ⟨content ++ start, (List.prefix_append_right_inj content).2 hstart, ?_⟩
          rw [hfile, List.append_assoc]

/-- Every start of the parts can be left. -/
theorem exists_leaves_map_append {place : Location} {old start : Bytes} {parts : List Bytes}
    (hplace : d.locate? name = some place) (hold : d.get? place = some (.file old))
    (h : start <+: parts.flatten) :
    ∃ d', Leaves d (parts.map (.append name)) d' ∧
      d'.get? place = some (.file (old ++ start)) := by
  induction parts generalizing d old start with
  | nil =>
      cases List.prefix_nil.1 h
      exact ⟨d, .stop d _, by simpa using hold⟩
  | cons content parts ih =>
      have hfree := ne_directory_of_file hold
      rw [List.flatten_cons] at h
      -- The first part is written as far as the start goes, or as a whole.
      rcases List.prefix_or_prefix_of_prefix h (List.prefix_append content _) with hbegins | hwhole
      · exact ⟨_, .partly hbegins (append?_of_file hplace hold start), get?_put_self hfree _⟩
      · obtain ⟨start, rfl⟩ := hwhole
        have hsame := sameDirectories_put_file hfree (old ++ content)
        obtain ⟨d', hleaves, hfile⟩ :=
          ih ((hsame.locate? name).trans hplace) (get?_put_self hfree (.file (old ++ content)))
            ((List.prefix_append_right_inj content).1 h)
        refine ⟨d', .next (append?_of_file hplace hold content) hleaves, ?_⟩
        rw [hfile, List.append_assoc]

/-- Where filling a new file is left, the directory is as before, or a start of the parts stands in
the file. -/
theorem leaves_fillSteps {place : Location} {parts : List Bytes}
    (hplace : d.locate? temporary = some place) (h : Leaves d (fillSteps temporary parts) d') :
    d' = d ∨ d.get? place ≠ some .directory ∧
      ∃ start, start <+: parts.flatten ∧ d'.get? place = some (.file start) := by
  cases h with
  | stop => exact .inl rfl
  | next done h =>
      obtain ⟨place', hplace', hfree, rfl⟩ := create?_eq_some_iff.1 done
      cases hplace.symm.trans hplace'
      have hsame := sameDirectories_put_file hfree []
      obtain ⟨start, hstart, hfile⟩ :=
        leaves_map_append ((hsame.locate? temporary).trans hplace) (get?_put_self hfree _) h
      exact .inr ⟨hfree, start, hstart, hfile⟩

/-- Every start of the parts can be left in a new file. -/
theorem exists_leaves_fillSteps {place : Location} {parts : List Bytes} {start : Bytes}
    (hplace : d.locate? temporary = some place) (hfree : d.get? place ≠ some .directory)
    (h : start <+: parts.flatten) :
    ∃ d', Leaves d (fillSteps temporary parts) d' ∧ d'.get? place = some (.file start) := by
  have hsame := sameDirectories_put_file hfree []
  have hcreate : d.step? (.create temporary) = some (d.put place (.file [])) :=
    create?_eq_some_iff.2 ⟨place, hplace, hfree, rfl⟩
  obtain ⟨d', hleaves, hfile⟩ := exists_leaves_map_append
    ((hsame.locate? temporary).trans hplace) (get?_put_self hfree (.file [])) h
  exact ⟨d', .next hcreate hleaves, hfile⟩

/-! ## A file in place of another -/

/-- Before the move the file of the name is as it was, unless it is the file that is filled. -/
theorem find?_of_leaves_fillSteps {parts : List Bytes}
    (h : Leaves d (fillSteps temporary parts) d') :
    d'.find? name = d.find? name ∨
      (d.TakesFile name ∧ d.locate? temporary = d.locate? name) ∧
        ∃ start, start <+: parts.flatten ∧ d'.find? name = some (.file start) := by
  have hframe : ChangesOnly [temporary] d d' :=
    changesOnly_of_leaves h fun _ => within_of_mem_fillSteps
  have hsame := hframe.sameDirectories
  cases htarget : d.locate? name with
  | none =>
      rw [Directory.find?, Directory.find?, hsame.locate?, htarget]
      exact .inl rfl
  | some target =>
      rw [hsame.find? htarget, find?_of_locate? htarget]
      by_cases hplace : d.locate? temporary = some target
      · rcases leaves_fillSteps hplace h with rfl | ⟨hfree, hstart⟩
        · exact .inl rfl
        · exact .inr ⟨⟨⟨target, htarget, hfree⟩, hplace⟩, hstart⟩
      · refine .inl (hframe.get?_eq target fun other hother => ?_)
        rwa [List.mem_singleton.1 hother]

/-- What can be left under the name: what was there, all that was to be written where both names
can be those of files, and any start of that where both names lead to one place. -/
theorem exists_leaves_replaceSteps_iff {parts : List Bytes} {found : Option Entry} :
    (∃ d', Leaves d (replaceSteps temporary name parts) d' ∧ d'.find? name = found) ↔
      found = d.find? name ∨
      (d.TakesFile temporary ∧ d.TakesFile name) ∧ found = some (.file parts.flatten) ∨
      (d.TakesFile name ∧ d.locate? temporary = d.locate? name) ∧
        ∃ start, start <+: parts.flatten ∧ found = some (.file start) := by
  constructor
  · rintro ⟨d', h, rfl⟩
    rcases leaves_append_iff.1 h with hfill | ⟨filled, hrun, hmove⟩
    · exact (find?_of_leaves_fillSteps hfill).imp_right .inr
    · rcases leaves_rename_iff.1 hmove with rfl | hrename
      · have hfill := leaves_run d (fillSteps temporary parts)
        rw [hrun] at hfill
        exact (find?_of_leaves_fillSteps hfill).imp_right .inr
      · have hall : d.run (replaceSteps temporary name parts) = (d', true) :=
          run_concat_iff.2 ⟨filled, hrun, hrename⟩
        exact .inr (.inl
          ⟨takesFile_of_run_replaceSteps hall, (replaces_of_run_replaceSteps hall).find?⟩)
  · rintro (rfl | ⟨⟨htemporary, hname⟩, rfl⟩ | ⟨⟨hname, hplaces⟩, start, hstart, rfl⟩)
    · exact ⟨d, .stop d _, rfl⟩
    · obtain ⟨d', hall⟩ := run_replaceSteps htemporary hname parts
      have hleaves := leaves_run d (replaceSteps temporary name parts)
      rw [hall] at hleaves
      exact ⟨d', hleaves, (replaces_of_run_replaceSteps hall).find?⟩
    · obtain ⟨target, htarget, hfree⟩ := hname
      obtain ⟨d', hfill, hfile⟩ := exists_leaves_fillSteps (hplaces.trans htarget) hfree hstart
      have hframe : ChangesOnly [temporary] d d' :=
        changesOnly_of_leaves hfill fun _ => within_of_mem_fillSteps
      refine ⟨d', leaves_append_iff.2 (.inl hfill), ?_⟩
      rw [hframe.sameDirectories.find? htarget, hfile]

end DocPath.Directory

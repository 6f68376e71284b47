import DocPath.Proofs.FileName

/-!
# The name of the temporary file

The temporary file stands beside its target, under the name that another extension makes of it. For
a target that can be a file this is another place, unless the target has that extension already:
then both names are the same.
-/

namespace DocPath

namespace FileName

/-- What stands in front of the extension of a part, if it has one. -/
theorem exists_stem_of_extensionOfPart? {part old : List Char}
    (h : extensionOfPart? part = some old) : ∃ stem, part = stem ++ '.' :: old := by
  by_cases hdot : '.' ∈ part
  · obtain ⟨stem, tail, rfl, htail⟩ := exists_behind_last hdot
    rw [extensionOfPart?_append htail] at h
    split at h
    · cases h
    · cases h
      exact ⟨stem, rfl⟩
  · rw [extensionOfPart?_of_not_mem hdot] at h
    cases h

/-- What stands in front of the last part stays when that is replaced. -/
theorem exists_front (cs : List Char) :
    ∃ front, cs = front ++ lastPart cs ∧ ∀ last, '/' ∉ last → lastPart (front ++ last) = last := by
  obtain ⟨-, heq | ⟨before, heq⟩⟩ := exists_eq_append_lastPart cs
  · exact ⟨[], heq, fun last hlast => lastPart_of_not_mem hlast⟩
  · refine ⟨before ++ ['/'], by simpa using heq, fun last hlast => ?_⟩
    rw [List.append_assoc]
    exact lastPart_append hlast before

section Neighbour

variable {name : String} (hempty : lastPart name.toList ≠ []) (hdot : lastPart name.toList ≠ ['.'])
  (hup : lastPart name.toList ≠ ['.', '.'])
include hempty hdot hup

theorem toList_withExtension_of_none (extension : String)
    (h : extensionOfPart? (lastPart name.toList) = none) :
    (withExtension extension name).toList = name.toList ++ '.' :: extension.toList := by
  simp [withExtension, base?_eq hempty hdot hup, h, trimmed_eq hempty hdot]

theorem toList_withExtension_of_some (extension : String) {before old : List Char}
    (h : extensionOfPart? (lastPart name.toList) = some old)
    (hname : name.toList = before ++ '.' :: old) :
    (withExtension extension name).toList = before ++ '.' :: extension.toList := by
  have hkept : name.toList.take (name.toList.length - (old.length + 1)) = before := by
    simp [hname]
  rw [withExtension, base?_eq hempty hdot hup]
  simp only [h, trimmed_eq hempty hdot, hkept]
  simp

/-- Every name can be cut in front of its extension, and its neighbours differ from it behind the
cut only. -/
theorem exists_cut :
    ∃ front stem, '/' ∉ stem ∧ (∀ last, '/' ∉ last → lastPart (front ++ last) = last) ∧
      name.toList = front ++ lastPart name.toList ∧
      lastPart name.toList =
        stem ++ (extensionOfPart? (lastPart name.toList)).elim [] ('.' :: ·) ∧
      ∀ extension : String,
        (withExtension extension name).toList = front ++ (stem ++ '.' :: extension.toList) := by
  obtain ⟨front, hfront, hlast⟩ := exists_front name.toList
  have hslash := (exists_eq_append_lastPart name.toList).1
  cases h : extensionOfPart? (lastPart name.toList) with
  | none =>
      refine ⟨front, lastPart name.toList, hslash, hlast, hfront, by simp, fun extension => ?_⟩
      rw [toList_withExtension_of_none hempty hdot hup extension h, ← List.append_assoc, ← hfront]
  | some old =>
      obtain ⟨stem, hstem⟩ := exists_stem_of_extensionOfPart? h
      have hcut : name.toList = (front ++ stem) ++ '.' :: old := by
        rw [List.append_assoc, ← hstem]
        exact hfront
      have hstemSlash : '/' ∉ stem := by
        intro hmem
        apply hslash
        rw [hstem]
        exact List.mem_append_left _ hmem
      refine ⟨front, stem, hstemSlash, hlast, hfront, hstem, fun extension => ?_⟩
      rw [toList_withExtension_of_some hempty hdot hup extension h hcut, List.append_assoc]

variable {extension : String}

/-- A neighbour ends in the extension, and as the name does exactly if that has it already. -/
theorem lastPart_withExtension (hextension : '/' ∉ extension.toList) :
    (∃ stem, lastPart (withExtension extension name).toList = stem ++ '.' :: extension.toList) ∧
      (lastPart (withExtension extension name).toList = lastPart name.toList ↔
        extension? name = some extension) := by
  obtain ⟨front, stem, hstem, hfront, -, hlast, hneighbour⟩ := exists_cut hempty hdot hup
  have hbehind : lastPart (withExtension extension name).toList =
      stem ++ '.' :: extension.toList := by
    rw [hneighbour]
    exact hfront _ (by simp [hstem, hextension])
  refine ⟨⟨stem, hbehind⟩, ?_⟩
  rw [hbehind, extension?_eq hempty hdot hup]
  conv_lhs => rw [hlast, List.append_cancel_left_eq]
  cases extensionOfPart? (lastPart name.toList) with
  | none => simp
  | some old => simp [← String.toList_inj, eq_comm]

/-- A name that has the extension already is its own neighbour. -/
theorem withExtension_eq_self (h : extension? name = some extension) :
    withExtension extension name = name := by
  obtain ⟨front, stem, -, -, hname, hlast, hneighbour⟩ := exists_cut hempty hdot hup
  rw [extension?_eq hempty hdot hup] at h
  obtain ⟨old, hold, rfl⟩ := Option.map_eq_some_iff.1 h
  rw [hold, Option.elim_some] at hlast
  rw [← String.toList_inj, hneighbour, String.toList_ofList, ← hlast, ← hname]

end Neighbour

end FileName

/-! ## Places -/

namespace Directory

variable {d : Directory} {name : String}

/-- A name whose last part is a name of its own leads to a place of that name. -/
theorem getLast?_of_locate? {place : Location} (h : d.locate? name = some place)
    (hempty : FileName.lastPart name.toList ≠ []) (hdot : FileName.lastPart name.toList ≠ ['.'])
    (hup : FileName.lastPart name.toList ≠ ['.', '.']) :
    place.getLast? = some (String.ofList (FileName.lastPart name.toList)) := by
  obtain ⟨front, q, -, hlast⟩ := exists_follow?_of_locate? h
  have hname : String.ofList (FileName.lastPart name.toList) ≠ "" ∧
      String.ofList (FileName.lastPart name.toList) ≠ "." ∧
      String.ofList (FileName.lastPart name.toList) ≠ ".." := by
    simp only [ne_eq, ← String.toList_inj, String.toList_ofList]
    exact ⟨hempty, hdot, hup⟩
  rw [follow?, if_neg (not_or.2 ⟨hname.1, hname.2.1⟩), if_neg hname.2.2, follow?] at hlast
  split at hlast
  · cases hlast
  · cases hlast
    simp

/-- All places on the way to a place are directories. -/
def Enclosed (d : Directory) (place : Location) : Prop :=
  ∀ above, above <+: place → above ≠ place → d.get? above = some .directory

theorem enclosed_top (d : Directory) : d.Enclosed [] :=
  fun _ habove hne => absurd (List.prefix_nil.1 habove) hne

theorem Enclosed.dropLast {place : Location} (h : d.Enclosed place) :
    d.Enclosed place.dropLast := by
  intro above habove hne
  refine h above (habove.trans (List.dropLast_prefix place)) ?_
  rintro rfl
  exact hne (habove.eq_of_length_le (by simp))

theorem Enclosed.concat {place : Location} (h : d.Enclosed place)
    (hplace : d.get? place = some .directory) (part : String) : d.Enclosed (place ++ [part]) := by
  intro above habove hne
  have hprefix : above <+: place := (List.prefix_concat_iff.1 habove).resolve_left hne
  by_cases heq : above = place
  · rw [heq, hplace]
  · exact h above hprefix heq

/-- Names lead through directories only. -/
theorem Enclosed.of_follow? {place q : Location} {parts : List String} (h : d.Enclosed place)
    (hq : d.follow? place parts = some q) : d.Enclosed q := by
  induction parts generalizing place with
  | nil =>
      cases hq
      exact h
  | cons part parts ih =>
      rw [follow?] at hq
      split at hq
      · cases hq
      · rename_i hplace
        split at hq
        · exact ih h hq
        · split at hq
          · exact ih h.dropLast hq
          · exact ih (h.concat (not_not.1 hplace) part) hq

/-- A name whose last part leads upwards leads to a directory. -/
theorem TakesFile.lastPart_ne_up (h : d.TakesFile name) :
    FileName.lastPart name.toList ≠ ['.', '.'] := by
  obtain ⟨place, h, hplace⟩ := h
  obtain ⟨front, q, hq, hlast⟩ := exists_follow?_of_locate? h
  intro hup
  have henclosed : d.Enclosed q := (enclosed_top d).of_follow? hq
  have hupwards : (if d.get? q ≠ some .directory then none else some q.dropLast) = some place := by
    simpa [hup, follow?] using hlast
  split at hupwards
  · cases hupwards
  · rename_i hq
    cases hupwards
    by_cases htop : q.dropLast = q
    · rw [htop] at hplace
      exact hq hplace
    · exact hplace (henclosed _ (List.dropLast_prefix q) htop)

end Directory

namespace Document

/-- The temporary file of a target is the target itself exactly if that has the extension of
temporary files already. -/
theorem locate?_temporaryName_iff {d : Directory} {name : String} (h : d.TakesFile name) :
    d.locate? (temporaryName name) = d.locate? name ↔ FileName.extension? name = some "tmp" := by
  obtain ⟨hempty, hdot⟩ := h.lastPart_ne
  have hup := h.lastPart_ne_up
  obtain ⟨⟨stem, hstem⟩, hsame⟩ :=
    FileName.lastPart_withExtension hempty hdot hup (by decide : '/' ∉ "tmp".toList)
  constructor
  · intro hplaces
    obtain ⟨place, hplace, -⟩ := h
    have hlast := Directory.getLast?_of_locate? hplace hempty hdot hup
    rw [← hplaces] at hplace
    have hlong : 4 ≤ (FileName.lastPart (temporaryName name).toList).length := by
      rw [temporaryName, hstem]
      simp
    have hlast' := Directory.getLast?_of_locate? hplace (fun heq => by simp [heq] at hlong)
      (fun heq => by simp [heq] at hlong) (fun heq => by simp [heq] at hlong)
    rw [hlast, Option.some_inj, String.ofList_inj] at hlast'
    exact hsame.1 hlast'.symm
  · intro hextension
    rw [temporaryName, FileName.withExtension_eq_self hempty hdot hup hextension]

end Document

end DocPath

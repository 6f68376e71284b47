import DocPath.Proofs.FileName

/-!
# Directories that are made

Making the directories of a name adds directories and changes nothing else, so every name that
leads to something leads to it still. Where no file is in the way, a file can be put below them.
-/

namespace DocPath

/-! ## The parent of a name -/

namespace FileName

theorem dropWhile_reverse {a : Char} {last : List Char} (h : a ∉ last) (rest : List Char) :
    (last.reverse ++ rest).dropWhile (· != a) = rest.dropWhile (· != a) :=
  List.dropWhile_append_of_pos (forall_bne_of_not_mem h)

section Parent

variable {name : String} (hempty : lastPart name.toList ≠ []) (hdot : lastPart name.toList ≠ ['.'])
include hempty hdot

theorem parent?_eq : parent? name =
    match name.toList.reverse.dropWhile (· != '/') with
    | [] => some ""
    | ['/'] => some "/"
    | _ :: above => some (String.ofList above.reverse) := by
  rw [parent?, trimmed_eq hempty hdot]
  split
  · rename_i heq
    rw [heq] at hempty
    exact absurd rfl hempty
  · rfl

theorem parent?_of_not_mem (h : '/' ∉ name.toList) : parent? name = some "" := by
  have hdrop := dropWhile_reverse h []
  rw [List.append_nil, List.dropWhile_nil] at hdrop
  rw [parent?_eq hempty hdot, hdrop]

/-- What stands in front of the last slash is the parent, unless the slash comes first. -/
theorem parent?_append {before last : List Char} (h : name.toList = before ++ '/' :: last)
    (hlast : '/' ∉ last) :
    parent? name = some (if before = [] then "/" else String.ofList before) := by
  have hdrop : name.toList.reverse.dropWhile (· != '/') = '/' :: before.reverse := by
    rw [h, List.reverse_append, List.reverse_cons, List.append_assoc, dropWhile_reverse hlast]
    rfl
  rw [parent?_eq hempty hdot, hdrop]
  cases hbefore : before.reverse with
  | nil =>
      rw [List.reverse_eq_nil_iff.1 hbefore]
      rfl
  | cons c rest =>
      have hne : before ≠ [] := by
        rintro rfl
        cases hbefore
      show some (String.ofList (c :: rest).reverse) = _
      rw [if_neg hne, ← hbefore, List.reverse_reverse]

end Parent

end FileName

namespace Directory

variable {d d' : Directory} {place : Location} {parts : List String} {name : String}

/-! ## What stays -/

/-- Everything that is there stays, and names are followed from the same place. -/
structure Keeps (d d' : Directory) : Prop where
  here_eq : d'.here = d.here
  get?_eq : ∀ place e, d.get? place = some e → d'.get? place = some e

theorem Keeps.refl (d : Directory) : Keeps d d := ⟨rfl, fun _ _ h => h⟩

theorem Keeps.trans {d'' : Directory} (h : Keeps d d') (h' : Keeps d' d'') : Keeps d d'' :=
  ⟨h'.here_eq.trans h.here_eq, fun place e he => h'.get?_eq place e (h.get?_eq place e he)⟩

theorem keeps_put (h : d.get? place = none) (e : Entry) : Keeps d (d.put place e) := by
  refine ⟨rfl, fun place' e' he' => ?_⟩
  by_cases htop : place' = []
  · rwa [htop, get?_top] at he' ⊢
  · rw [get?_put d place place' e htop, if_neg, he']
    rintro rfl
    rw [h] at he'
    cases he'

/-- A name leads where it led before. -/
theorem Keeps.follow? (h : Keeps d d') {q : Location} (hq : d.follow? place parts = some q) :
    d'.follow? place parts = some q := by
  induction parts generalizing place with
  | nil => exact hq
  | cons part parts ih =>
      rw [Directory.follow?] at hq ⊢
      by_cases hdirectory : d.get? place = some .directory
      · rw [if_neg (not_not_intro hdirectory)] at hq
        rw [if_neg (not_not_intro (h.get?_eq place _ hdirectory))]
        by_cases hstay : part = "" ∨ part = "."
        · rw [if_pos hstay] at hq ⊢
          exact ih hq
        · rw [if_neg hstay] at hq ⊢
          by_cases hup : part = ".."
          · rw [if_pos hup] at hq ⊢
            exact ih hq
          · rw [if_neg hup] at hq ⊢
            exact ih hq
      · rw [if_pos hdirectory] at hq
        cases hq

theorem Keeps.locate? (h : Keeps d d') (hplace : d.locate? name = some place) :
    d'.locate? name = some place := by
  rw [Directory.locate?] at hplace ⊢
  split at hplace
  · cases hplace
  · rename_i hname
    have hroute : d'.route name = d.route name := by rw [route, route, h.here_eq]
    rw [if_neg hname, hroute, h.follow? hplace]

theorem Keeps.find? (h : Keeps d d') {e : Entry} (he : d.find? name = some e) :
    d'.find? name = some e := by
  obtain ⟨place, hplace, hentry⟩ := Option.bind_eq_some_iff.1 he
  rw [find?_of_locate? (h.locate? hplace), h.get?_eq place e hentry]

/-! ## What is made -/

/-- Making directories adds to what is there. -/
theorem keeps_of_makeFrom? (h : d.makeFrom? place parts = some d') : Keeps d d' := by
  fun_induction Directory.makeFrom? d place parts with
  | case1 =>
      cases h
      exact .refl d'
  | case2 d place part parts hstay ih => exact ih h
  | case3 d place parts _ ih => exact ih h
  | case4 d place part parts _ _ hdirectory ih => exact ih h
  | case5 => cases h
  | case6 d place part parts _ _ hnone ih => exact (keeps_put hnone .directory).trans (ih h)

theorem keeps_of_makeDirectories? (h : d.makeDirectories? name = some d') : Keeps d d' := by
  rw [makeDirectories?] at h
  split at h
  · cases h
  · exact keeps_of_makeFrom? h

/-! ## What can be made -/

theorem IsOrdinary.follow?_cons {part : String} (h : IsOrdinary part)
    (hplace : d.get? place = some .directory) :
    d.follow? place (part :: parts) = d.follow? (place ++ [part]) parts := by
  obtain ⟨hempty, hdot, hup⟩ := h
  rw [Directory.follow?, if_neg (not_not_intro hplace), if_neg (not_or.2 ⟨hempty, hdot⟩),
    if_neg hup]

/-- Where no file is in the way, the directory of a part is there or is made. -/
theorem IsOrdinary.exists_makeFrom?_cons {part : String} (h : IsOrdinary part)
    (hfree : ∀ content, d.get? (place ++ [part]) ≠ some (.file content)) (parts : List String) :
    ∃ next, d.makeFrom? place (part :: parts) = next.makeFrom? (place ++ [part]) parts ∧
      next.get? (place ++ [part]) = some .directory ∧ Keeps d next ∧
      ∀ q, q ≠ place ++ [part] → next.get? q = d.get? q := by
  obtain ⟨hempty, hdot, hup⟩ := h
  rw [makeFrom?, if_neg (not_or.2 ⟨hempty, hdot⟩), if_neg hup]
  cases hentry : d.get? (place ++ [part]) with
  | none =>
      have hput := keeps_put hentry .directory
      refine ⟨d.put (place ++ [part]) .directory, rfl, ?_, hput, fun q hq => ?_⟩
      · rw [get?_put d _ _ _ (by simp), if_pos rfl]
      · by_cases htop : q = []
        · simp [htop]
        · rw [get?_put d _ _ _ htop, if_neg hq]
  | some e =>
      cases e with
      | directory => exact ⟨d, rfl, hentry, .refl d, fun _ _ => rfl⟩
      | file content => exact absurd hentry (hfree content)

/-- Where no file is in the way, directories can be made down through ordinary parts. Nothing that
is not on the way changes. -/
theorem exists_makeFrom? (hplace : d.get? place = some .directory)
    (hparts : ∀ part ∈ parts, IsOrdinary part)
    (hway : ∀ front, front <+: parts → ∀ content, d.get? (place ++ front) ≠ some (.file content)) :
    ∃ d', d.makeFrom? place parts = some d' ∧ d'.follow? place parts = some (place ++ parts) ∧
      d'.get? (place ++ parts) = some .directory ∧
      ∀ q, ¬q <+: place ++ parts → d'.get? q = d.get? q := by
  induction parts generalizing d place with
  | nil => exact ⟨d, rfl, by simp [Directory.follow?], by simpa using hplace, fun _ _ => rfl⟩
  | cons part parts ih =>
      have hpart := hparts part List.mem_cons_self
      have hsplit (front : List String) : place ++ part :: front = (place ++ [part]) ++ front := by
        simp
      obtain ⟨next, hnext, hdirectory, hkeeps, hsame⟩ :=
        hpart.exists_makeFrom?_cons (hway [part] ⟨parts, rfl⟩) parts
      have hway' : ∀ front, front <+: parts →
          ∀ content, next.get? ((place ++ [part]) ++ front) ≠ some (.file content) := by
        intro front hfront content
        by_cases hhere : front = []
        · rw [hhere, List.append_nil, hdirectory]
          exact fun h => by cases h
        · rw [hsame _ (by simpa using hhere), ← hsplit]
          exact hway _ (List.prefix_cons_inj part |>.2 hfront) content
      obtain ⟨d', hmake, hfollow, hlast, hother⟩ :=
        ih hdirectory (fun p hp => hparts p (List.mem_cons_of_mem part hp)) hway'
      have hplace' : d'.get? place = some .directory :=
        (keeps_of_makeFrom? hmake).get?_eq _ _ (hkeeps.get?_eq _ _ hplace)
      rw [hsplit]
      refine ⟨d', hnext.trans hmake, ?_, hlast, fun q hq => ?_⟩
      · rw [hpart.follow?_cons hplace', hfollow]
      · rw [hother q hq, hsame]
        rintro rfl
        exact hq (List.prefix_append _ parts)

/-- An empty part at the end makes nothing more. -/
theorem makeFrom?_concat_empty (d : Directory) (place : Location) (parts : List String) :
    d.makeFrom? place (parts ++ [""]) = d.makeFrom? place parts := by
  fun_induction Directory.makeFrom? d place parts with
  | case1 => rfl
  | case2 d place part parts hstay ih => rw [List.cons_append, makeFrom?, if_pos hstay, ih]
  | case3 d place parts hstay ih => rw [List.cons_append, makeFrom?, if_neg hstay, if_pos rfl, ih]
  | case4 d place part parts hstay hup hdirectory ih =>
      rw [List.cons_append, makeFrom?, if_neg hstay, if_neg hup, hdirectory, ih]
  | case5 d place part parts hstay hup content hfile =>
      rw [List.cons_append, makeFrom?, if_neg hstay, if_neg hup, hfile]
  | case6 d place part parts hstay hup hnone ih =>
      rw [List.cons_append, makeFrom?, if_neg hstay, if_neg hup, hnone, ih]

/-- The parent leads through what the name leads through, but for the last part. -/
theorem exists_route_parent (d : Directory) (hempty : FileName.lastPart name.toList ≠ [])
    (hdot : FileName.lastPart name.toList ≠ ['.']) :
    ∃ parent front last, FileName.parent? name = some parent ∧ parent.toList ⊆ name.toList ∧
      d.route name = front ++ [last] ∧
      (d.route parent = front ∨ d.route parent = front ++ [""]) := by
  obtain ⟨hslash, heq | ⟨before, heq⟩⟩ := FileName.exists_eq_append_lastPart name.toList
  · have hnone : '/' ∉ name.toList := heq ▸ hslash
    exact ⟨"", d.here, name, FileName.parent?_of_not_mem hempty hdot hnone, List.nil_subset _,
      route_of_not_mem d hnone, .inr (route_of_not_mem d List.not_mem_nil)⟩
  · have hparent := FileName.parent?_append hempty hdot heq hslash
    generalize FileName.lastPart name.toList = last at hslash heq
    have hparts : FileName.parts name =
        (before.splitOn '/').map String.ofList ++ [String.ofList last] := by
      rw [FileName.parts, heq, List.splitOn_append_cons_self, List.splitOn_eq_singleton hslash,
        List.map_append]
      rfl
    cases before with
    | nil =>
        have htop : name.startsWith "/" = true := by
          rw [String.startsWith_string_iff, heq]
          exact ⟨last, rfl⟩
        have habove : d.route "/" = [] ++ [""] := by
          rw [route, if_pos (by decide +kernel)]
          decide +kernel
        refine ⟨"/", [], String.ofList last, hparent, ?_, ?_, .inr habove⟩
        · rw [heq]
          exact fun c hc => List.mem_append_right [] (List.mem_cons.2 (.inl (by simpa using hc)))
        · rw [route, if_pos htop, hparts]
          rfl
    | cons c before =>
        have hsame : (String.ofList (c :: before)).startsWith "/" = name.startsWith "/" := by
          rw [Bool.eq_iff_iff, String.startsWith_string_iff, String.startsWith_string_iff, heq]
          simp
        have hfront : FileName.parts (String.ofList (c :: before)) =
            ((c :: before).splitOn '/').map String.ofList := by
          rw [FileName.parts, String.toList_ofList]
        refine ⟨String.ofList (c :: before), d.route (String.ofList (c :: before)),
          String.ofList last, hparent, ?_, ?_, .inl rfl⟩
        · rw [heq, String.toList_ofList]
          exact List.subset_append_left _ _
        · rw [route, route, hsame, hparts, hfront]
          split
          · rw [List.drop_append_of_le_length]
            rw [List.length_map]
            exact List.length_pos_iff.2 (List.splitOn_ne_nil '/' _)
          · rw [List.append_assoc]

section Ordinary

variable {front : List String} {last : String} (hroute : d.route name = front ++ [last])
  (hordinary : ∀ part ∈ front ++ [last], IsOrdinary part)
include hroute hordinary

theorem lastPart_of_isOrdinary :
    FileName.lastPart name.toList ≠ [] ∧ FileName.lastPart name.toList ≠ ['.'] := by
  obtain ⟨front', hroute'⟩ := exists_route_eq d name
  rw [← hroute, hroute'] at hordinary
  obtain ⟨hempty, hdot, -⟩ := hordinary _ List.mem_concat_self
  exact ⟨fun h => hempty (congrArg String.ofList h), fun h => hdot (congrArg String.ofList h)⟩

variable (hzero : '\x00' ∉ name.toList)
include hzero

theorem locate?_of_isOrdinary : d.locate? name = d.follow? [] (front ++ [last]) := by
  have hempty := (lastPart_of_isOrdinary hroute hordinary).1
  rw [locate?, if_neg, hroute]
  rw [not_or]
  refine ⟨?_, by simpa using hzero⟩
  rintro rfl
  exact hempty rfl

/-- The directories of the parent are those that the parts in front of the last one lead through. -/
theorem exists_makeDirectories?_parent :
    ∃ parent, FileName.parent? name = some parent ∧
      d.makeDirectories? parent = d.makeFrom? [] front := by
  obtain ⟨hempty, hdot⟩ := lastPart_of_isOrdinary hroute hordinary
  obtain ⟨parent, front', last', hparent, hsub, hroute', hfront⟩ :=
    exists_route_parent d hempty hdot
  obtain ⟨rfl, -⟩ := List.append_inj' (hroute.symm.trans hroute') rfl
  refine ⟨parent, hparent, ?_⟩
  rw [makeDirectories?, if_neg (by simpa using fun h => hzero (hsub h))]
  rcases hfront with heq | heq
  · rw [heq]
  · rw [heq, makeFrom?_concat_empty]

/-- Where no file is in the way, the directories that lead to a name of ordinary parts can be made,
and if no directory has the name, a file can be put there then. -/
theorem exists_takesFile_of_isOrdinary
    (hway : ∀ start, start <+: front → ∀ content, d.get? start ≠ some (.file content))
    (hfree : d.get? (front ++ [last]) ≠ some .directory) :
    ∃ parent d', FileName.parent? name = some parent ∧ d.makeDirectories? parent = some d' ∧
      d'.TakesFile name := by
  have hfront : ∀ part ∈ front, IsOrdinary part := fun part hpart =>
    hordinary part (List.mem_append_left _ hpart)
  have hlast : IsOrdinary last := hordinary last List.mem_concat_self
  obtain ⟨parent, hparent, hmake⟩ := exists_makeDirectories?_parent hroute hordinary hzero
  obtain ⟨d', hmade, hfollow, hdirectory, hsame⟩ := exists_makeFrom? (get?_top d) hfront hway
  rw [List.nil_append] at hfollow hdirectory hsame
  have hroute' : d'.route name = front ++ [last] := by
    rw [← hroute, route, route, (keeps_of_makeFrom? hmade).here_eq]
  refine ⟨parent, d', hparent, hmake.trans hmade, front ++ [last], ?_, ?_⟩
  · rw [locate?_of_isOrdinary hroute' hordinary hzero, follow?_concat, hfollow, Option.bind_some,
      hlast.follow?_cons hdirectory, follow?]
  · have hbelow : ¬front ++ [last] <+: front := by
      intro h
      have hlength := h.length_le
      rw [List.length_append, List.length_singleton] at hlength
      omega
    rw [hsame _ hbelow]
    exact hfree

end Ordinary

end Directory

end DocPath

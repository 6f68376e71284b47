import Mathlib.Data.List.Infix
import DocPath.Document.Load
import DocPath.Document.Save
import DocPath.Proofs.Directory.Save

/-!
# The suffix and the extension of a name

A name that does not lead to a directory ends in a part of its own, and all of it counts. Its
extension is `gz` exactly if the name ends in `.gz` and the last part has something in front of
that.
-/

namespace DocPath

/-- What stands behind the last occurrence of an element. -/
theorem exists_behind_last {α : Type} {a : α} {l : List α} (h : a ∈ l) :
    ∃ before last, l = before ++ a :: last ∧ a ∉ last := by
  obtain ⟨last, before, hsplit, hlast⟩ := List.eq_append_cons_of_mem (List.mem_reverse.2 h)
  refine ⟨before.reverse, last.reverse, ?_, by simpa using hlast⟩
  rw [← List.reverse_reverse l, hsplit]
  simp

theorem forall_bne_of_not_mem {a : Char} {last : List Char} (h : a ∉ last) :
    ∀ c ∈ last.reverse, (c != a) = true := by
  intro c hc
  rw [bne_iff_ne]
  rintro rfl
  exact h (List.mem_reverse.1 hc)

theorem takeWhile_reverse_of_not_mem {a : Char} {last : List Char} (h : a ∉ last) :
    (last.reverse.takeWhile (· != a)).reverse = last := by
  have htake : (last.reverse ++ []).takeWhile (· != a) = last.reverse ++ [] :=
    List.takeWhile_append_of_pos (forall_bne_of_not_mem h)
  rw [List.append_nil] at htake
  rw [htake, List.reverse_reverse]

theorem takeWhile_reverse_append {a : Char} {last : List Char} (h : a ∉ last)
    (before : List Char) :
    ((before ++ a :: last).reverse.takeWhile (· != a)).reverse = last := by
  have hreverse : (before ++ a :: last).reverse = last.reverse ++ a :: before.reverse := by simp
  rw [hreverse, List.takeWhile_append_of_pos (forall_bne_of_not_mem h)]
  simp

namespace FileName

theorem lastPart_of_not_mem {cs : List Char} (h : '/' ∉ cs) : lastPart cs = cs :=
  takeWhile_reverse_of_not_mem h

theorem lastPart_append {last : List Char} (h : '/' ∉ last) (before : List Char) :
    lastPart (before ++ '/' :: last) = last :=
  takeWhile_reverse_append h before

theorem parts_of_not_mem {name : String} (h : '/' ∉ name.toList) : parts name = [name] := by
  rw [parts, List.splitOn_eq_singleton h, List.map_singleton, String.ofList_toList]

/-! ## Extensions -/

theorem extensionOfPart?_of_not_mem {part : List Char} (h : '.' ∉ part) :
    extensionOfPart? part = none := by
  rw [extensionOfPart?, takeWhile_reverse_of_not_mem h]
  exact if_neg (by omega)

theorem extensionOfPart?_append {tail : List Char} (h : '.' ∉ tail) (before : List Char) :
    extensionOfPart? (before ++ '.' :: tail) = if before = [] then none else some tail := by
  rw [extensionOfPart?, takeWhile_reverse_append h]
  simp only [List.length_append, List.length_cons]
  cases before with
  | nil => simp
  | cons c before => simp

/-- A part has the extension `gz` if it ends in that behind a dot that does not come first. -/
theorem extensionOfPart?_eq_gz_iff (part : List Char) :
    extensionOfPart? part = some ['g', 'z'] ↔
      ['.', 'g', 'z'] <:+ part ∧ part ≠ ['.', 'g', 'z'] := by
  by_cases hdot : '.' ∈ part
  · obtain ⟨before, tail, rfl, htail⟩ := exists_behind_last hdot
    rw [extensionOfPart?_append htail]
    constructor
    · intro h
      split at h
      · cases h
      · rename_i hbefore
        cases h
        exact ⟨List.suffix_append before _, fun heq => hbefore (by simpa using heq)⟩
    · rintro ⟨⟨front, hfront⟩, hne⟩
      -- Both texts behind the last dot are the same.
      have hbehind := takeWhile_reverse_append htail before
      rw [← hfront, takeWhile_reverse_append (by decide : '.' ∉ ['g', 'z']) front] at hbehind
      subst hbehind
      rw [if_neg]
      rintro rfl
      exact hne rfl
  · rw [extensionOfPart?_of_not_mem hdot]
    constructor
    · rintro ⟨⟩
    · rintro ⟨⟨front, rfl⟩, -⟩
      exact (hdot (by simp)).elim

/-! ## Whole names -/

theorem trimReverse_append {run : List Char} (hslash : '/' ∉ run) (hempty : run ≠ [])
    (hdot : run ≠ ['.']) (rest : List Char) : trimReverse (run ++ rest) = run ++ rest := by
  obtain ⟨c, run, rfl⟩ := List.exists_cons_of_ne_nil hempty
  have hc : c ≠ '/' := fun heq => hslash (by simp [heq])
  unfold trimReverse
  split
  · rename_i heq
    exact (hc (List.cons.inj heq).1).elim
  · rename_i heq
    obtain ⟨rfl, htail⟩ := List.cons.inj heq
    cases run with
    | nil => exact (hdot rfl).elim
    | cons c' run =>
        have hc' : c' = '/' := (List.cons.inj htail).1
        exact (hslash (by simp [hc'])).elim
  · rfl

/-- A text is its last part, or has a slash in front of that. -/
theorem exists_eq_append_lastPart (cs : List Char) :
    '/' ∉ lastPart cs ∧ (cs = lastPart cs ∨ ∃ before, cs = before ++ '/' :: lastPart cs) := by
  by_cases hslash : '/' ∈ cs
  · obtain ⟨before, last, rfl, hlast⟩ := exists_behind_last hslash
    rw [lastPart_append hlast]
    exact ⟨hlast, .inr ⟨before, rfl⟩⟩
  · rw [lastPart_of_not_mem hslash]
    exact ⟨hslash, .inl rfl⟩

theorem trimmed_eq {name : String} (hempty : lastPart name.toList ≠ [])
    (hdot : lastPart name.toList ≠ ['.']) : trimmed name = name.toList := by
  obtain ⟨hslash, hsplit⟩ := exists_eq_append_lastPart name.toList
  have hreverse : ∃ rest, name.toList.reverse = (lastPart name.toList).reverse ++ rest := by
    rcases hsplit with heq | ⟨before, heq⟩
    · exact ⟨[], by rw [← heq, List.append_nil]⟩
    · exact ⟨'/' :: before.reverse, by rw [heq, lastPart_append hslash]; simp⟩
  obtain ⟨rest, hrest⟩ := hreverse
  have hdot' : (lastPart name.toList).reverse ≠ ['.'] := by
    intro heq
    exact hdot (by simpa using congrArg List.reverse heq)
  rw [trimmed, hrest, trimReverse_append (by simpa using hslash) (by simpa using hempty) hdot',
    ← hrest, List.reverse_reverse]

/-- A last part that is a name of its own is the one that counts. -/
theorem base?_eq {name : String} (hempty : lastPart name.toList ≠ [])
    (hdot : lastPart name.toList ≠ ['.']) (hup : lastPart name.toList ≠ ['.', '.']) :
    base? name = some (lastPart name.toList) := by
  simp [base?, trimmed_eq hempty hdot, hempty, hdot, hup]

/-- The extension of a name that leads to no directory by itself is that of its last part. -/
theorem extension?_eq {name : String} (hempty : lastPart name.toList ≠ [])
    (hdot : lastPart name.toList ≠ ['.']) (hup : lastPart name.toList ≠ ['.', '.']) :
    extension? name = (extensionOfPart? (lastPart name.toList)).map String.ofList := by
  rw [extension?, base?_eq hempty hdot hup, Option.bind_some]

/-- A name ends in `.gz` exactly if its last part does. -/
theorem gz_suffix_iff (cs : List Char) :
    ['.', 'g', 'z'] <:+ cs ↔ ['.', 'g', 'z'] <:+ lastPart cs := by
  obtain ⟨hslash, heq | ⟨before, heq⟩⟩ := exists_eq_append_lastPart cs
  · rw [← heq]
  · constructor
    · intro hsuffix
      have hlast : '/' :: lastPart cs <:+ cs := ⟨before, heq.symm⟩
      rcases List.suffix_or_suffix_of_suffix hsuffix hlast with hshort | hlong
      · -- The suffix has no slash, so it cannot be all of this.
        rcases List.suffix_cons_iff.1 hshort with hall | hrest
        · cases hall
        · exact hrest
      · have hmem : '/' ∈ ['.', 'g', 'z'] := hlong.subset List.mem_cons_self
        exact absurd hmem (by decide)
    · intro hsuffix
      have hlast : lastPart cs <:+ cs := by
        refine ⟨before ++ ['/'], ?_⟩
        rw [List.append_assoc]
        exact heq.symm
      exact hsuffix.trans hlast

end FileName

namespace Document

open FileName

theorem isCompressedTarget_iff (name : String) :
    isCompressedTarget name = true ↔ ['.', 'g', 'z'] <:+ lastPart name.toList := by
  rw [← gz_suffix_iff, isCompressedTarget, String.endsWith_eq_endsWith_toSlice,
    String.Slice.endsWith_string_iff]
  simp

/-- A file is decompressed exactly if it was compressed, unless its last part is `.gz`. -/
theorem isCompressed_iff {name : String} (hempty : lastPart name.toList ≠ [])
    (hdot : lastPart name.toList ≠ ['.']) :
    isCompressed name = true ↔
      isCompressedTarget name = true ∧ lastPart name.toList ≠ ['.', 'g', 'z'] := by
  rw [isCompressedTarget_iff]
  by_cases hup : lastPart name.toList = ['.', '.']
  · have hbase : base? name = none := by
      simp [base?, trimmed_eq hempty hdot, hup]
    have hnot : ¬['.', 'g', 'z'] <:+ ['.', '.'] := by decide
    simp [isCompressed, extension?, hbase, hup, hnot]
  · rw [isCompressed, extension?_eq hempty hdot hup, ← extensionOfPart?_eq_gz_iff, beq_iff_eq]
    constructor
    · intro h
      obtain ⟨tail, htail, hgz⟩ := Option.map_eq_some_iff.1 h
      have hchars : tail = ['g', 'z'] := String.ofList_injective hgz
      rw [htail, hchars]
    · intro h
      rw [h]
      rfl

end Document

/-! ## Names of files -/

namespace Directory

theorem follow?_concat (d : Directory) (place : Location) (parts : List String) (last : String) :
    d.follow? place (parts ++ [last]) =
      (d.follow? place parts).bind fun q => d.follow? q [last] := by
  induction parts generalizing place with
  | nil => rfl
  | cons part parts ih =>
      rw [List.cons_append, follow?, follow?]
      split
      · rfl
      · split
        · exact ih place
        · split
          · exact ih _
          · exact ih _

/-- A name that starts with a slash has more parts than the last one. -/
theorem exists_parts_eq (name : String) :
    ∃ front, FileName.parts name = front ++ [String.ofList (FileName.lastPart name.toList)] ∧
      (name.startsWith "/" = true → front ≠ []) := by
  obtain ⟨hslash, heq | ⟨before, heq⟩⟩ := FileName.exists_eq_append_lastPart name.toList
  · refine ⟨[], ?_, fun htop => ?_⟩
    · rw [FileName.parts, List.splitOn_eq_singleton (heq ▸ hslash), ← heq]
      rfl
    · rw [String.startsWith_string_iff, heq] at htop
      exact absurd (htop.subset (by decide)) hslash
  · refine ⟨(before.splitOn '/').map String.ofList, ?_, fun _ => ?_⟩
    · rw [FileName.parts]
      conv_lhs => rw [heq]
      rw [List.splitOn_append_cons_self, List.splitOn_eq_singleton hslash, List.map_append]
      rfl
    · rw [ne_eq, List.map_eq_nil_iff]
      exact List.splitOn_ne_nil '/' before

theorem exists_route_eq (d : Directory) (name : String) :
    ∃ front, d.route name = front ++ [String.ofList (FileName.lastPart name.toList)] := by
  obtain ⟨front, hparts, hfront⟩ := exists_parts_eq name
  rw [route, hparts]
  split
  · rename_i htop
    obtain ⟨_, front, rfl⟩ := List.exists_cons_of_ne_nil (hfront htop)
    exact ⟨front, rfl⟩
  · exact ⟨d.here ++ front, (List.append_assoc _ _ _).symm⟩

/-- Every name is followed by way of its last part. -/
theorem exists_follow?_of_locate? {d : Directory} {name : String} {place : Location}
    (h : d.locate? name = some place) :
    ∃ front q, d.follow? [] front = some q ∧
      d.follow? q [String.ofList (FileName.lastPart name.toList)] = some place := by
  obtain ⟨front, hroute⟩ := exists_route_eq d name
  rw [locate?, hroute, follow?_concat] at h
  split at h
  · cases h
  · obtain ⟨q, hq, hlast⟩ := Option.bind_eq_some_iff.1 h
    exact ⟨front, q, hq, hlast⟩

/-- A name whose last part is empty or a dot leads to a directory. -/
theorem TakesFile.lastPart_ne {d : Directory} {name : String} (h : d.TakesFile name) :
    FileName.lastPart name.toList ≠ [] ∧ FileName.lastPart name.toList ≠ ['.'] := by
  obtain ⟨place, h, hplace⟩ := h
  obtain ⟨front, q, -, hlast⟩ := exists_follow?_of_locate? h
  rw [← not_or]
  intro hstay
  have htext : String.ofList (FileName.lastPart name.toList) = "" ∨
      String.ofList (FileName.lastPart name.toList) = "." :=
    hstay.imp (congrArg String.ofList) (congrArg String.ofList)
  rw [follow?, if_pos htext] at hlast
  split at hlast
  · cases hlast
  · rename_i hdirectory
    cases hlast
    exact hdirectory hplace

theorem route_of_not_mem (d : Directory) {name : String} (hslash : '/' ∉ name.toList) :
    d.route name = d.here ++ [name] := by
  rw [route, if_neg, FileName.parts_of_not_mem hslash]
  intro htop
  rw [String.startsWith_string_iff] at htop
  exact hslash (htop.subset (by decide))

/-- A part of a name that leads down to what has that name. -/
def IsOrdinary (part : String) : Prop := part ≠ "" ∧ part ≠ "." ∧ part ≠ ".."

/-- A name that is one ordinary part. -/
def IsPlain (name : String) : Prop :=
  IsOrdinary name ∧ '/' ∉ name.toList ∧ '\x00' ∉ name.toList

instance (name : String) : Decidable (IsPlain name) :=
  inferInstanceAs (Decidable ((name ≠ "" ∧ name ≠ "." ∧ name ≠ "..") ∧ _))

/-- At the top a plain name leads to a place at the top. -/
theorem locate?_of_isPlain {d : Directory} (hhere : d.here = []) {name : String}
    (h : IsPlain name) : d.locate? name = some [name] := by
  obtain ⟨⟨hempty, hdot, hup⟩, hslash, hzero⟩ := h
  have hname : ¬(name = "" ∨ name.contains '\x00' = true) := by
    rw [not_or]
    exact ⟨hempty, by simpa using hzero⟩
  rw [locate?, if_neg hname, route_of_not_mem d hslash, hhere, List.nil_append, follow?, get?_top,
    if_neg (not_not_intro rfl)]
  simp [hempty, hdot, hup, follow?]

end Directory

end DocPath

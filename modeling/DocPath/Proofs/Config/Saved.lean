import Mathlib.Data.List.Infix
import DocPath.Config
import DocPath.Proofs.Directory.Making
import DocPath.Proofs.Toml.Document

/-!
# Saved settings load again

The text of settings is a document of four written fields, so it reads back as these settings. It
can be written unless the indentation is too large for a whole number, and that shows before the
file is touched: what is there then stays. In every other case the file holds the text, if a file
can be put there at all.
-/

namespace DocPath.Config

open Toml

/-! ## The text of settings -/

theorem isBareKey_settings : ∀ key ∈ ["prefer_arrays", "concat_patterns", "output_format",
    "indent_size"], IsBareKey key := by
  simp [IsBareKey, isKeyChar, Char.isAlphanum]

/-- The fields of the text of settings. -/
def writtenFields (c : Config) (h : c.indentSize.toNat < 0x8000000000000000) :
    List WrittenField :=
  [{ key := "prefer_arrays"
     text := booleanChars c.preferArrays
     node := .scalar (.boolean c.preferArrays)
     isBareKey := isBareKey_settings _ (by simp)
     spells := spells_boolean _ },
   { key := "concat_patterns"
     text := quotedArray c.concatPatterns
     node := .array (c.concatPatterns.map textNode)
     isBareKey := isBareKey_settings _ (by simp)
     spells := spells_quotedArray _ },
   { key := "output_format"
     text := quoted c.outputFormat
     node := textNode c.outputFormat
     isBareKey := isBareKey_settings _ (by simp)
     spells := spells_quoted _ },
   { key := "indent_size"
     text := (decimal c.indentSize.toNat).toList
     node := .scalar (.integer c.indentSize.toNat)
     isBareKey := isBareKey_settings _ (by simp)
     spells := by
      rw [decimal, String.toList_ofList]
      exact spells_toDigits h }]

theorem text_of_lt {c : Config} (h : c.indentSize.toNat < 0x8000000000000000) :
    c.text = .ok (String.ofList ((c.writtenFields h).flatMap WrittenField.line)) := by
  rw [text, if_pos h]
  simp [writtenFields, WrittenField.line]

theorem text_of_le {c : Config} (h : ¬c.indentSize.toNat < 0x8000000000000000) :
    c.text = .error {} :=
  if_neg h

theorem strings?_textNodes (items : List String) :
    strings? (.array (items.map textNode)) = some items := by
  rw [strings?]
  induction items with
  | nil => rfl
  | cons s items ih =>
      rw [List.map_cons, List.mapM_cons, ih]
      rfl

theorem size?_toNat (n : UInt64) : size? (.scalar (.integer n.toNat)) = some n := by
  simp [size?]

/-- Every setting is found under its key, and under no other. -/
theorem ofDocument?_writtenFields {c : Config} (h : c.indentSize.toNat < 0x8000000000000000) :
    ofDocument? ⟨(c.writtenFields h).map WrittenField.entry, []⟩ = some c := by
  have harrays : setting? ((c.writtenFields h).map WrittenField.entry) "prefer_arrays" boolean?
      ({} : Config).preferArrays = some c.preferArrays := rfl
  have hpatterns : setting? ((c.writtenFields h).map WrittenField.entry) "concat_patterns" strings?
      ({} : Config).concatPatterns = some c.concatPatterns :=
    strings?_textNodes c.concatPatterns
  have hformat : setting? ((c.writtenFields h).map WrittenField.entry) "output_format" string?
      ({} : Config).outputFormat = some c.outputFormat := rfl
  have hindent : setting? ((c.writtenFields h).map WrittenField.entry) "indent_size" size?
      ({} : Config).indentSize = some c.indentSize :=
    size?_toNat c.indentSize
  rw [ofDocument?]
  simp only [harrays, hpatterns, hformat, hindent, Option.bind_eq_bind, Option.bind_some]
  rfl

/-- The text of settings reads back as these settings. -/
theorem ofText_text {c : Config} (h : c.indentSize.toNat < 0x8000000000000000) :
    ofText (String.ofList ((c.writtenFields h).flatMap WrittenField.line)) = c := by
  have hdistinct : ((c.writtenFields h).map WrittenField.key).Nodup := by simp [writtenFields]
  rw [ofText, WrittenField.parse?_lines _ hdistinct, Option.bind_some, ofDocument?_writtenFields h]
  rfl

/-! ## Files -/

section Files

variable {d : Directory} {name : String}

/-- The directories that lead to the name can be made, and a file can be put there then. -/
def IsWritable (d : Directory) (name : String) : Prop :=
  ∃ above, d.run (directorySteps name) = (above, true) ∧ above.TakesFile name

theorem isWritable_of_isOrdinary {front : List String} {last : String}
    (hroute : d.route name = front ++ [last])
    (hordinary : ∀ part ∈ front ++ [last], Directory.IsOrdinary part)
    (hzero : '\x00' ∉ name.toList)
    (hway : ∀ start, start <+: front → ∀ content, d.get? start ≠ some (.file content))
    (hfree : d.get? (front ++ [last]) ≠ some .directory) : IsWritable d name := by
  obtain ⟨parent, above, hparent, hmake, htakes⟩ :=
    Directory.exists_takesFile_of_isOrdinary hroute hordinary hzero hway hfree
  refine ⟨above, ?_, htakes⟩
  rw [directorySteps, hparent]
  exact Directory.run_cons_iff.2 ⟨above, hmake, rfl⟩

theorem keeps_of_run_directorySteps {above : Directory}
    (h : d.run (directorySteps name) = (above, true)) : d.Keeps above := by
  rw [directorySteps] at h
  cases hparent : FileName.parent? name with
  | none =>
      rw [hparent] at h
      cases h
      exact .refl _
  | some parent =>
      rw [hparent] at h
      obtain ⟨made, hstep, hrest⟩ := Directory.run_cons_iff.1 h
      cases hrest
      exact Directory.keeps_of_makeDirectories? hstep

/-- Settings that are too large are not written, and what was there stays. -/
theorem saveTo_of_le {c : Config} (h : IsWritable d name)
    (hlarge : ¬c.indentSize.toNat < 0x8000000000000000) :
    ∃ above, saveTo d name c = (above, .error (.tooLarge {})) ∧ d.Keeps above := by
  obtain ⟨above, hrun, -⟩ := h
  refine ⟨above, ?_, keeps_of_run_directorySteps hrun⟩
  rw [saveTo, hrun, text_of_le hlarge]
  rfl

/-- All other settings are written, and are what is in the file then. -/
theorem saveTo_of_lt {c : Config} (h : IsWritable d name)
    (hsmall : c.indentSize.toNat < 0x8000000000000000) :
    ∃ d', saveTo d name c = (d', .ok ()) ∧ loadFrom d' name = c := by
  obtain ⟨above, hrun, place, hplace, hfree⟩ := h
  let text := String.ofList ((c.writtenFields hsmall).flatMap WrittenField.line)
  obtain ⟨d', hwrite, hframe, hfile⟩ :=
    Directory.run_fillSteps hplace hfree [Bytes.ofText text]
  have hwrite' : above.run (writeSteps name text) = (d', true) := hwrite
  refine ⟨d', ?_, ?_⟩
  · rw [saveTo, hrun, text_of_lt hsmall]
    simp only [Bool.not_true, Bool.false_eq_true, if_false]
    rw [hwrite']
    rfl
  · rw [loadFrom, hframe.sameDirectories.find? hplace, hfile, List.flatten_singleton, ofFile]
    simp only [Bytes.text?_ofText, Option.map_some, Option.getD_some]
    exact ofText_text hsmall

end Files

/-- Where the location is writable, saving fails exactly if the indentation is larger than whole
numbers are, and then everything that was there stays. Otherwise the same settings load from the
location. -/
theorem loadFrom_saveTo {d : Directory} {name : String} (h : IsWritable d name) (c : Config) :
    ((∃ e, (saveTo d name c).2 = .error e) ↔ Int64.maxValue.toInt < c.indentSize.toNat) ∧
      (Int64.maxValue.toInt < c.indentSize.toNat → ∀ other entry, d.find? other = some entry →
        (saveTo d name c).1.find? other = some entry) ∧
      (c.indentSize.toNat ≤ Int64.maxValue.toInt → loadFrom (saveTo d name c).1 name = c) := by
  have hmax : Int64.maxValue.toInt = 0x7FFFFFFFFFFFFFFF := by decide
  by_cases hsmall : c.indentSize.toNat < 0x8000000000000000
  · obtain ⟨d', hsave, hload⟩ := saveTo_of_lt h hsmall
    rw [hsave]
    refine ⟨⟨?_, fun hlarge => by omega⟩, fun hlarge => by omega, fun _ => hload⟩
    rintro ⟨e, he⟩
    cases he
  · obtain ⟨above, hsave, hkeeps⟩ := saveTo_of_le h hsmall
    rw [hsave]
    exact ⟨⟨fun _ => by omega, fun _ => ⟨_, rfl⟩⟩, fun _ _ _ => hkeeps.find?,
      fun hle => by omega⟩

/-- Settings with quotes, backslashes, line ends, control characters and characters beyond ASCII
take the place of a file that is no settings file. With too large an indentation they leave it. -/
theorem loadFrom_saveTo_nameIn :
    let file : Location := ["home", ".config", "treepath", "config.toml"]
    let d : Directory :=
      { entries := [(["work"], .directory), (["home"], .directory),
          (["home", ".config"], .directory), (["home", ".config", "treepath"], .directory),
          (file, .file [0x78])]
        here := ["work"] }
    let name := nameIn "/home"
    let c : Config :=
      { preferArrays := true
        concatPatterns := ["a\"b", "''\\\n'", "\r\n\t", "\x01\x7f", "é∀𝒫", ""]
        outputFormat := "\n'''"
        indentSize := 0x7FFFFFFFFFFFFFFF }
    let large : Config := { c with indentSize := 0x8000000000000000 }
    IsWritable d name ∧ loadFrom (saveTo d name c).1 name = c ∧
      (∃ e, (saveTo d name large).2 = .error e) ∧
      (saveTo d name large).1.find? name = some (.file [0x78]) := by
  intro file d name c large
  have hroute : d.route name = ["home", ".config", "treepath"] ++ ["config.toml"] := by
    decide +kernel
  have hordinary : ∀ part ∈ ["home", ".config", "treepath"] ++ ["config.toml"],
      Directory.IsOrdinary part := by simp [Directory.IsOrdinary]
  have hzero : '\x00' ∉ name.toList := by decide +kernel
  have hwritable : IsWritable d name := by
    refine isWritable_of_isOrdinary hroute hordinary hzero ?_ (by decide)
    intro start hstart content
    have hstarts : start = [] ∨ start = ["home"] ∨ start = ["home", ".config"] ∨
        start = ["home", ".config", "treepath"] := by simpa using (List.mem_inits _ _).2 hstart
    have hdirectory : d.get? start = some .directory := by
      rcases hstarts with rfl | rfl | rfl | rfl <;> rfl
    rw [hdirectory]
    rintro ⟨⟩
  have hfind : d.find? name = some (.file [0x78]) := by
    rw [Directory.find?, Directory.locate?_of_isOrdinary hroute hordinary hzero]
    rfl
  have hlarge : Int64.maxValue.toInt < large.indentSize.toNat := by decide
  obtain ⟨-, -, hload⟩ := loadFrom_saveTo hwritable c
  obtain ⟨hfails, hkeeps, -⟩ := loadFrom_saveTo hwritable large
  exact ⟨hwritable, hload (by decide), hfails.2 hlarge, hkeeps hlarge name _ hfind⟩

end DocPath.Config

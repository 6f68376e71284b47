import DocPath.Proofs.Document.RoundTrip
import DocPath.Proofs.FileName
import DocPath.Proofs.Gzip.RoundTrip

/-!
# Saved documents load again

A document that was saved stands under its name, compressed if the name ends in `.gz`. Loading
takes its extension for that instead, which is the same for every name that a file can have but
those with the last part `.gz`: they have no extension. There the compressed file is read as a
text, which it never is, and everywhere else the document loads again.
-/

namespace DocPath.Document

open Value

theorem savedFormat_json {name : String} (h : Format.ofFileName? name ≠ some .yaml) :
    savedFormat .json name = .json := by
  rw [savedFormat]
  cases hname : Format.ofFileName? name with
  | none => rfl
  | some format =>
      cases format with
      | json => rfl
      | yaml => exact absurd hname h

/-- Whatever the name tells when it is loaded, JSON is read as JSON. -/
theorem parse_savedText [Json.DoubleReader] {indent : UInt64} {name text : String} {v : Value}
    (hname : Format.ofFileName? name ≠ some .yaml) (hv : IsRegular Json.ReadsBack v)
    (hdepth : v.depth ≤ Json.maxDepth) (htext : savedText .json indent name v = .ok text) :
    parse (Format.ofFileName? name) text = .ok v := by
  rw [savedText, savedFormat_json hname] at htext
  cases hformat : Format.ofFileName? name with
  | none => exact parse_none_render hv hdepth htext
  | some format =>
      cases format with
      | json => exact parse_json_render hv hdepth htext
      | yaml => exact absurd hformat hname

/-- In the empty directory every plain name can be that of a file. -/
theorem takesFile_empty {name : String} (h : Directory.IsPlain name) :
    Directory.empty.TakesFile name :=
  ⟨[name], Directory.locate?_of_isPlain rfl h, by simp [Directory.get?, Directory.empty]⟩

/-- Every document has a text for an indentation that is no longer than a text can be. -/
theorem exists_savedText_of_le {indent : UInt64} (h : indent.toNat ≤ maxLength) (default : Format)
    (name : String) (v : Value) : ∃ text, savedText default indent name v = .ok text := by
  rw [savedText]
  cases savedFormat default name with
  | json => exact ⟨_, render_json_of_le h v⟩
  | yaml => exact ⟨_, rfl⟩

section

variable [Gzip.Encoder]

/-- The bytes that are saved for a text. -/
def savedBytes (name text : String) : Bytes :=
  if isCompressedTarget name then Gzip.compress (Bytes.ofText text) else Bytes.ofText text

theorem flatten_savedParts (name text : String) :
    (savedParts name text).flatten = savedBytes name text := by
  rw [savedParts, savedBytes]
  split
  · rfl
  · simp

section Saves

variable {d : Directory} {default : Format} {indent : UInt64} {name : String} {v : Value}

theorem save_of_error {e : IndentOverflow} (h : savedText default indent name v = .error e) :
    save d default indent name v = (d, .error (.overflow e)) := by
  rw [save, h]

theorem exists_savedText (h : (save d default indent name v).2 = .ok ()) :
    ∃ text, savedText default indent name v = .ok text := by
  cases htext : savedText default indent name v with
  | ok text => exact ⟨text, rfl⟩
  | error e =>
      rw [save_of_error htext] at h
      cases h

/-- The steps of saving a text are done, all of them exactly if saving succeeds. -/
theorem run_saveSteps {text : String} (htext : savedText default indent name v = .ok text) :
    d.run (Directory.replaceSteps (temporaryName name) name (savedParts name text)) =
      ((save d default indent name v).1, decide ((save d default indent name v).2 = .ok ())) := by
  obtain ⟨d', done, hrun⟩ : ∃ d' done, d.run (saveSteps name text) = (d', done) := ⟨_, _, rfl⟩
  have hsteps : d.run (Directory.replaceSteps (temporaryName name) name (savedParts name text)) =
      (d', done) := hrun
  rw [save, htext, hsteps]
  simp only [hrun]
  cases done with
  | true => simp
  | false => simp

/-- Saving succeeds exactly if the document has a text and the name and that of the temporary file
can be those of files. -/
theorem save_eq_ok_iff :
    (save d default indent name v).2 = .ok () ↔
      (∃ text, savedText default indent name v = .ok text) ∧
        d.TakesFile (temporaryName name) ∧ d.TakesFile name := by
  constructor
  · intro h
    obtain ⟨text, htext⟩ := exists_savedText h
    have hrun := run_saveSteps (d := d) htext
    rw [decide_eq_true h] at hrun
    exact ⟨⟨text, htext⟩, Directory.takesFile_of_run_replaceSteps hrun⟩
  · rintro ⟨⟨text, htext⟩, htemporary, hname⟩
    have hrun := run_saveSteps (d := d) htext
    obtain ⟨d', hdone⟩ := Directory.run_replaceSteps htemporary hname (savedParts name text)
    rw [hrun] at hdone
    exact of_decide_eq_true (congrArg Prod.snd hdone)

/-- In the empty directory every document can be saved under a plain name. -/
theorem save_empty_eq_ok (hindent : indent.toNat ≤ maxLength) (hname : Directory.IsPlain name)
    (htemporary : Directory.IsPlain (temporaryName name)) :
    (save .empty default indent name v).2 = .ok () :=
  save_eq_ok_iff.2 ⟨exists_savedText_of_le hindent default name v, takesFile_empty htemporary,
    takesFile_empty hname⟩

/-- What is saved takes the place of the file of the name, and nothing else changes. -/
theorem replaces_save (h : (save d default indent name v).2 = .ok ()) :
    ∃ text, savedText default indent name v = .ok text ∧
      Directory.Replaces (temporaryName name) name (savedBytes name text) d
        (save d default indent name v).1 := by
  obtain ⟨text, htext⟩ := exists_savedText h
  have hrun := run_saveSteps (d := d) htext
  rw [decide_eq_true h] at hrun
  refine ⟨text, htext, ?_⟩
  rw [← flatten_savedParts]
  exact Directory.replaces_of_run_replaceSteps hrun

/-- Saving that fails leaves everything as it was, but for the temporary file. -/
theorem changesOnly_save (h : (save d default indent name v).2 ≠ .ok ()) :
    Directory.ChangesOnly [temporaryName name] d (save d default indent name v).1 := by
  cases htext : savedText default indent name v with
  | error e =>
      rw [save_of_error htext]
      exact .refl _ d
  | ok text =>
      have hrun := run_saveSteps (d := d) htext
      rw [decide_eq_false h] at hrun
      exact Directory.changesOnly_of_run_replaceSteps hrun

end Saves

/-- What is read of the saved bytes of a text is the text, but for names with the last part `.gz`:
their compressed bytes are not decompressed. -/
theorem textOfFile_savedBytes {name : String} (hempty : FileName.lastPart name.toList ≠ [])
    (hdot : FileName.lastPart name.toList ≠ ['.']) (text : String) :
    textOfFile name (some (.file (savedBytes name text))) =
      if FileName.lastPart name.toList = ['.', 'g', 'z'] then .error (.unreadable name)
      else .ok text := by
  have hcompressed := isCompressed_iff hempty hdot
  rw [textOfFile, savedBytes]
  by_cases htarget : isCompressedTarget name = true
  · by_cases hgz : FileName.lastPart name.toList = ['.', 'g', 'z']
    · have hplain : ¬isCompressed name = true := fun h => (hcompressed.1 h).2 hgz
      rw [if_neg hplain, if_pos htarget, if_pos hgz]
      simp only [Gzip.text?_compress, Option.elim_none]
    · rw [if_pos (hcompressed.2 ⟨htarget, hgz⟩), if_pos htarget, if_neg hgz]
      simp only [Gzip.decompress?_compress, Option.bind_some, Bytes.text?_ofText,
        Option.elim_some]
  · have hplain : ¬isCompressed name = true := fun h => htarget (hcompressed.1 h).1
    have hgz : FileName.lastPart name.toList ≠ ['.', 'g', 'z'] := by
      intro hgz
      apply htarget
      rw [isCompressedTarget_iff, hgz]
    rw [if_neg hplain, if_neg htarget, if_neg hgz]
    simp only [Bytes.text?_ofText, Option.elim_some]

/-- What was saved under a name is read as its text, with the one exception. -/
theorem textOfFile_save {d : Directory} {default : Format} {indent : UInt64} {name : String}
    {v : Value} (hsaved : (save d default indent name v).2 = .ok ()) :
    ∃ text, savedText default indent name v = .ok text ∧
      textOfFile name ((save d default indent name v).1.find? name) =
        if FileName.lastPart name.toList = ['.', 'g', 'z'] then .error (.unreadable name)
        else .ok text := by
  obtain ⟨text, htext, hreplaces⟩ := replaces_save hsaved
  obtain ⟨-, -, hfile⟩ := save_eq_ok_iff.1 hsaved
  obtain ⟨hempty, hdot⟩ := hfile.lastPart_ne
  refine ⟨text, htext, ?_⟩
  rw [hreplaces.find?, textOfFile_savedBytes hempty hdot]

section

variable [Json.DoubleReader]

/-- What was saved under a name with the last part `.gz` is there but cannot be read, whatever it
is. -/
theorem load_save_hidden {d : Directory} {default : Format} {indent : UInt64} {name : String}
    {v : Value} (hhidden : FileName.lastPart name.toList = ['.', 'g', 'z'])
    (hsaved : (save d default indent name v).2 = .ok ()) :
    load (save d default indent name v).1 name = .error (.unreadable name) := by
  obtain ⟨text, -, hread⟩ := textOfFile_save hsaved
  rw [load, ofFile, hread, if_pos hhidden]
  rfl

/-- A document that was saved in JSON loads again if its doubles are read back, unless the last part
of its name is `.gz`: then the file is there but cannot be read. -/
theorem load_save {d : Directory} {indent : UInt64} {name : String} {v : Value}
    (hname : Format.ofFileName? name ≠ some .yaml) (hdistinct : v.HasDistinctKeys)
    (hcanonical : v.HasCanonicalNumbers) (hdepth : v.depth ≤ Json.maxDepth)
    (hcodec : Json.ReadsBackDoubles v) (hsaved : (save d .json indent name v).2 = .ok ()) :
    load (save d .json indent name v).1 name =
      if FileName.lastPart name.toList = ['.', 'g', 'z'] then .error (.unreadable name)
      else .ok v := by
  obtain ⟨text, htext, hread⟩ := textOfFile_save hsaved
  have hregular : IsRegular Json.ReadsBack v := isRegular_readsBack hdistinct hcanonical hcodec
  have hparse : parse (Format.ofFileName? name) text = .ok v :=
    parse_savedText hname hregular hdepth htext
  rw [load, ofFile, hread]
  split
  · rfl
  · show (parse (Format.ofFileName? name) text).mapError _ = .ok v
    rw [hparse]
    rfl

end

end

open scoped Json.Nearest Gzip.Stored

theorem load_save_sample :
    (save .empty .json 2 "a.json.gz" sampleDocument).2 = .ok () ∧
      load (save .empty .json 2 "a.json.gz" sampleDocument).1 "a.json.gz" =
        .ok sampleDocument := by
  have hsaved : (save .empty .json 2 "a.json.gz" sampleDocument).2 = .ok () :=
    save_empty_eq_ok (by decide) (by decide +kernel) (by decide +kernel)
  have hload := load_save (by decide +kernel) sampleDocument_hasDistinctKeys
    sampleDocument_hasCanonicalNumbers (by decide) (Json.readsBackDoubles_nearest _) hsaved
  rw [if_neg (by decide)] at hload
  exact ⟨hsaved, hload⟩

/-- A document that is saved under the name `.gz` does not load again. -/
theorem load_save_fails :
    (save .empty .json 2 ".gz" .null).2 = .ok () ∧
      load (save .empty .json 2 ".gz" .null).1 ".gz" ≠ .ok .null := by
  have hsaved : (save .empty .json 2 ".gz" .null).2 = .ok () :=
    save_empty_eq_ok (by decide) (by decide +kernel) (by decide +kernel)
  refine ⟨hsaved, ?_⟩
  rw [load_save_hidden (by decide) hsaved]
  exact fun h => by cases h

end DocPath.Document

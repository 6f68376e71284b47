import DocPath.Proofs.Directory.Interruption
import DocPath.Proofs.Document.Saved
import DocPath.Proofs.Document.TemporaryName

/-!
# Saving that is interrupted

Wherever saving a document is interrupted, nothing but the target and the temporary file beside it
has changed. The target holds what it held before or the whole document, unless its name has the
extension of temporary files: then it is its own temporary file, and any start of the document can
be left in it.
-/

namespace DocPath.Document

open Directory (Leaves leaves_nil_iff ChangesOnly)

section

variable [Gzip.Encoder]

/-- The steps of saving a document under a name. None are done for a document without a text. -/
def documentSteps (default : Format) (indent : UInt64) (name : String) (v : Value) : List Step :=
  match savedText default indent name v with
  | .error _ => []
  | .ok text => saveSteps name text

theorem documentSteps_of_ok {default : Format} {indent : UInt64} {name text : String} {v : Value}
    (h : savedText default indent name v = .ok text) :
    documentSteps default indent name v =
      Directory.replaceSteps (temporaryName name) name (savedParts name text) := by
  rw [documentSteps, h]
  rfl

theorem documentSteps_of_error {default : Format} {indent : UInt64} {name : String} {v : Value}
    {e : IndentOverflow} (h : savedText default indent name v = .error e) :
    documentSteps default indent name v = [] := by
  rw [documentSteps, h]

theorem within_of_mem_documentSteps {default : Format} {indent : UInt64} {name : String}
    {v : Value} : ∀ s ∈ documentSteps default indent name v,
      s.Within [temporaryName name, name] := by
  cases htext : savedText default indent name v with
  | error e =>
      rw [documentSteps_of_error htext]
      exact List.forall_mem_nil _
  | ok text =>
      rw [documentSteps_of_ok htext]
      exact fun s hs => Directory.within_of_mem_replaceSteps hs

/-- A save that comes to its end, failing or not, is one that can be left there. -/
theorem leaves_save (d : Directory) (default : Format) (indent : UInt64) (name : String)
    (v : Value) :
    Leaves d (documentSteps default indent name v) (save d default indent name v).1 := by
  cases htext : savedText default indent name v with
  | error e =>
      rw [documentSteps_of_error htext, save_of_error htext]
      exact .stop _ _
  | ok text =>
      have hrun := congrArg Prod.fst (run_saveSteps (d := d) htext)
      dsimp only at hrun
      rw [documentSteps_of_ok htext, ← hrun]
      exact Directory.leaves_run d _

/-- What an interrupted save can leave under the name: what was there; the whole document, where
both names can be those of files; and for a target with the extension of temporary files any start
of the document. -/
theorem exists_leaves_save_iff (d : Directory) (default : Format) (indent : UInt64) (name : String)
    (v : Value) (found : Option Entry) :
    (∃ d', Leaves d (documentSteps default indent name v) d' ∧ d'.find? name = found) ↔
      found = d.find? name ∨
      ∃ text, savedText default indent name v = .ok text ∧
        ((d.TakesFile (temporaryName name) ∧ d.TakesFile name) ∧
            found = some (.file (savedBytes name text)) ∨
          (d.TakesFile name ∧ FileName.extension? name = some "tmp") ∧
            ∃ start, start <+: savedBytes name text ∧ found = some (.file start)) := by
  have hplaces : d.TakesFile name ∧ d.locate? (temporaryName name) = d.locate? name ↔
      d.TakesFile name ∧ FileName.extension? name = some "tmp" :=
    and_congr_right fun h => locate?_temporaryName_iff h
  cases htext : savedText default indent name v with
  | error e =>
      rw [documentSteps_of_error htext]
      constructor
      · rintro ⟨d', hleaves, rfl⟩
        rw [leaves_nil_iff.1 hleaves]
        exact .inl rfl
      · rintro (rfl | ⟨text, htext', -⟩)
        · exact ⟨d, .stop _ _, rfl⟩
        · cases htext'
  | ok text =>
      rw [documentSteps_of_ok htext, Directory.exists_leaves_replaceSteps_iff, flatten_savedParts,
        hplaces]
      simp

end

section

open scoped Gzip.Stored

/-- A target with the extension of temporary files can be left half written. -/
theorem leaves_save_half_written :
    let d := Directory.empty.put ["x.tmp"] (.file (Bytes.ofText "old"))
    savedText .json 2 "x.tmp" .null = .ok "null\n" ∧
    ∃ d', Leaves d (documentSteps .json 2 "x.tmp" .null) d' ∧
      d'.find? "x.tmp" ≠ d.find? "x.tmp" ∧
      d'.find? "x.tmp" ≠ some (.file (savedBytes "x.tmp" "null\n")) := by
  intro d
  have htext : savedText .json 2 "x.tmp" .null = .ok "null\n" := by decide +kernel
  have hplace : d.locate? "x.tmp" = some ["x.tmp"] :=
    Directory.locate?_of_isPlain rfl (by decide +kernel)
  have hold : d.get? ["x.tmp"] = some (.file (Bytes.ofText "old")) :=
    Directory.get?_put_self (by decide) _
  have hstart : Bytes.ofText "nu" <+: savedBytes "x.tmp" "null\n" := by
    decide +kernel
  obtain ⟨d', hleaves, hfound⟩ : ∃ d', Leaves d (documentSteps .json 2 "x.tmp" .null) d' ∧
      d'.find? "x.tmp" = some (.file (Bytes.ofText "nu")) := by
    have htemporary : temporaryName "x.tmp" = "x.tmp" := by decide +kernel
    rw [documentSteps_of_ok htext, Directory.exists_leaves_replaceSteps_iff, htemporary,
      flatten_savedParts]
    exact .inr (.inr ⟨⟨⟨_, hplace, Directory.ne_directory_of_file hold⟩, rfl⟩, _, hstart, rfl⟩)
  refine ⟨htext, d', hleaves, ?_, ?_⟩
  · rw [hfound, Directory.find?_of_locate? hplace, hold]
    decide
  · rw [hfound]
    decide +kernel

end

section

variable [Gzip.Encoder]

/-- A save changes nothing but its target and the temporary file, wherever it is interrupted and
whether it succeeds or not. It succeeds where the document has a text and both names can be those of
files. Then the text of the document stands under the name, compressed if that ends in `.gz`, and
nothing under the temporary name, unless both names lead to one place. -/
theorem save_changes (d : Directory) (default : Format) (indent : UInt64) (name : String)
    (v : Value) :
    (∀ d', Leaves d (documentSteps default indent name v) d' →
      ChangesOnly [temporaryName name, name] d d') ∧
    ChangesOnly [temporaryName name, name] d (save d default indent name v).1 ∧
    ((save d default indent name v).2 = .ok () ↔
      (∃ text, render ((Format.ofFileName? name).getD default) indent v = .ok text) ∧
        d.TakesFile (temporaryName name) ∧ d.TakesFile name) ∧
    ((save d default indent name v).2 = .ok () →
      (∃ text content, render ((Format.ofFileName? name).getD default) indent v = .ok text ∧
        (save d default indent name v).1.find? name = some (.file content) ∧
        if name.endsWith ".gz" then Gzip.decompress? content = some (Bytes.ofText text)
        else content = Bytes.ofText text) ∧
      (d.locate? (temporaryName name) ≠ d.locate? name →
        (save d default indent name v).1.find? (temporaryName name) = none)) := by
  have hframe : ∀ d', Leaves d (documentSteps default indent name v) d' →
      ChangesOnly [temporaryName name, name] d d' := fun d' h =>
    Directory.changesOnly_of_leaves h within_of_mem_documentSteps
  refine ⟨hframe, hframe _ (leaves_save d default indent name v), save_eq_ok_iff, fun hok => ?_⟩
  obtain ⟨text, htext, hreplaces⟩ := replaces_save hok
  refine ⟨⟨text, _, htext, hreplaces.find?, ?_⟩, hreplaces.find?_temporary⟩
  show if isCompressedTarget name then _ else _
  rw [savedBytes]
  split
  · exact Gzip.decompress?_compress _
  · rfl

end

open scoped Gzip.Stored

/-- A compressed document in the format that its name tells. The temporary name was taken, and is
free behind the save. -/
theorem save_changes_compressed :
    let d := (Directory.empty.put ["notes"] (.file [1, 2])).put ["a.json.tmp"] (.file [3])
    let created := d.put ["a.json.tmp"] (.file [])
    let text := "\x7b\n  \"a\": [\n    -1,\n    2.5,\n    9223372036854775808\n  ]\n\x7d\n"
    Leaves d (documentSteps .yaml 2 "a.json.gz" sampleDocument) created ∧
      ChangesOnly [temporaryName "a.json.gz", "a.json.gz"] d created ∧
      (save d .yaml 2 "a.json.gz" sampleDocument).2 = .ok () ∧
      (∃ content, (save d .yaml 2 "a.json.gz" sampleDocument).1.find? "a.json.gz" =
          some (.file content) ∧ Gzip.decompress? content = some (Bytes.ofText text)) ∧
      d.locate? (temporaryName "a.json.gz") ≠ d.locate? "a.json.gz" ∧
      (save d .yaml 2 "a.json.gz" sampleDocument).1.find? (temporaryName "a.json.gz") = none := by
  intro d created text
  have htemporary : temporaryName "a.json.gz" = "a.json.tmp" := by decide +kernel
  have hformat : (Format.ofFileName? "a.json.gz").getD .yaml = .json := by decide +kernel
  have hgz : "a.json.gz".endsWith ".gz" = true := by decide +kernel
  have htext : savedText .yaml 2 "a.json.gz" sampleDocument = .ok text := by
    rw [savedText, savedFormat, hformat]
    decide +kernel
  have hplace : d.locate? (temporaryName "a.json.gz") = some ["a.json.tmp"] := by
    rw [htemporary]
    exact Directory.locate?_of_isPlain rfl (by decide +kernel)
  have htarget : d.locate? "a.json.gz" = some ["a.json.gz"] :=
    Directory.locate?_of_isPlain rfl (by decide +kernel)
  have hold : d.get? ["a.json.tmp"] ≠ some .directory := by decide
  have hcreated : d.step? (.create (temporaryName "a.json.gz")) = some created :=
    Directory.create?_eq_some_iff.2 ⟨_, hplace, hold, rfl⟩
  have hleaves : Leaves d (documentSteps .yaml 2 "a.json.gz" sampleDocument) created := by
    rw [documentSteps_of_ok htext]
    exact .next hcreated (.stop _ _)
  have hplaces : d.locate? (temporaryName "a.json.gz") ≠ d.locate? "a.json.gz" := by
    rw [hplace, htarget]
    decide
  obtain ⟨hframe, -, hsaves, hsaved⟩ := save_changes d .yaml 2 "a.json.gz" sampleDocument
  have hok : (save d .yaml 2 "a.json.gz" sampleDocument).2 = .ok () :=
    hsaves.2 ⟨⟨text, htext⟩, ⟨_, hplace, hold⟩, ⟨_, htarget, by decide⟩⟩
  obtain ⟨⟨text', content, htext', hfound, hcontent⟩, hgone⟩ := hsaved hok
  have heq : text' = text := Except.ok.inj (htext'.symm.trans htext)
  rw [if_pos hgz, heq] at hcontent
  exact ⟨hleaves, hframe _ hleaves, hok, ⟨content, hfound, hcontent⟩, hplaces, hgone hplaces⟩

end DocPath.Document

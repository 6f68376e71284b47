import DocPath.Proofs.CommandLine.Result
import DocPath.Proofs.Directory.Save
import DocPath.Proofs.Document.Saved
import DocPath.Proofs.Run

/-!
# How runs end

A request ends in one of four ways: it fails with nothing printed or written, it prints a text, it
prints a document, or a document is saved, which succeeds or not. Files are changed in the last case
only, and no more than the temporary file where saving fails.
-/

namespace DocPath

namespace Command

variable {δ ε σ : Type}

/-- The command makes a document, and not a text. -/
def MakesDocument : Command δ → Prop
  | get .. | set .. | strip .. | merge .. => True
  | parse .. | template .. => False

theorem MakesDocument.mapM {f : δ → StateM σ ε} {c : Command δ} (h : c.MakesDocument) (s : σ) :
    (c.mapM f s).1.MakesDocument := by
  cases c with
  | parse path | template text assignments document => exact h.elim
  | get document path | set document path value preferArrays | strip document patterns
  | merge base overlay joining => trivial

/-- Such a command has no other result. -/
theorem MakesDocument.exists_result_eq [Json.DoubleReader] {config : Config}
    {c : Command (Except LoadError Value)} (hc : c.MakesDocument) {result : Result}
    (h : c.result config = .ok result) : ∃ v, result = .document v := by
  cases c with
  | parse path => exact hc.elim
  | get document path =>
      obtain ⟨v, -, h⟩ := bind_eq_ok_iff.1 h
      obtain ⟨p, -, h⟩ := bind_eq_ok_iff.1 h
      cases hget : v.get? p with
      | none =>
          rw [hget] at h
          cases h
      | some w =>
          rw [hget] at h
          cases h
          exact ⟨w, rfl⟩
  | set document path value preferArrays =>
      obtain ⟨v, -, h⟩ := bind_eq_ok_iff.1 h
      obtain ⟨p, -, h⟩ := bind_eq_ok_iff.1 h
      cases h
      exact ⟨_, rfl⟩
  | strip document patterns =>
      obtain ⟨v, -, h⟩ := bind_eq_ok_iff.1 h
      obtain ⟨ps, -, h⟩ := bind_eq_ok_iff.1 h
      cases h
      exact ⟨_, rfl⟩
  | merge base overlay joining =>
      obtain ⟨b, -, h⟩ := bind_eq_ok_iff.1 h
      obtain ⟨o, -, h⟩ := bind_eq_ok_iff.1 h
      obtain ⟨ps, -, h⟩ := bind_eq_ok_iff.1 h
      cases h
      exact ⟨_, rfl⟩
  | template text assignments document => exact hc.elim

end Command

theorem Failure.status_ne_zero (e : Failure) : e.status ≠ 0 := by
  unfold status
  split
  · decide
  · decide
  · decide

namespace CommandLine

open Directory (ChangesOnly Replaces)

/-! ## What is done in the end -/

theorem outcome_congr {p q : Program Unit} {w w' : World} (h : p.run w = q.run w') :
    p.outcome w = q.outcome w' := by
  rw [Program.outcome, Program.outcome, h]

theorem outcome_print (s : String) (d : Directory) (input : Bytes) :
    Program.outcome (World.host.print s) ⟨d, input, ""⟩ = ⟨0, s, none, d⟩ := by
  show (⟨0, "" ++ s, none, d⟩ : Outcome) = _
  rw [String.empty_append]

namespace Outcome

variable (saved : Directory × Except SaveError Unit)

/-- How a request ends whose document is saved. -/
def ofSave : Outcome :=
  match saved.2 with
  | .ok _ => ⟨0, "", none, saved.1⟩
  | .error e => ⟨(Failure.save e).status, "", some (.save e), saved.1⟩

@[simp] theorem output_ofSave : (ofSave saved).output = "" := by
  rw [ofSave]
  cases saved.2 <;> rfl

@[simp] theorem directory_ofSave : (ofSave saved).directory = saved.1 := by
  rw [ofSave]
  cases saved.2 <;> rfl

theorem status_ofSave_eq_zero_iff : (ofSave saved).status = 0 ↔ saved.2 = .ok () := by
  rw [ofSave]
  cases saved.2 with
  | ok _ => exact iff_of_true rfl rfl
  | error e => exact iff_of_false (Failure.status_ne_zero _) fun hok => by cases hok

end Outcome

section

variable [Gzip.Encoder]

theorem outcome_emit_none {format : Format} {indent : UInt64} {v : Value} {text : String}
    (h : Document.render format indent v = .ok text) (d : Directory) (input : Bytes) :
    Program.outcome (World.host.emit format indent none v) ⟨d, input, ""⟩ = ⟨0, text, none, d⟩ := by
  rw [← outcome_print text d input, World.emit_none, h]
  rfl

theorem outcome_emit_some (format : Format) (indent : UInt64) (name : String) (v : Value)
    (d : Directory) (input : Bytes) :
    Program.outcome (World.host.emit format indent (some name) v) ⟨d, input, ""⟩ =
      .ofSave (Document.save d format indent name v) := by
  rw [Program.outcome, World.run_emit_some, Outcome.ofSave]
  cases (Document.save d format indent name v).2 <;> rfl

/-! ## Requests -/

/-- The ways in which a request ends whose command makes something, or fails to. -/
inductive Ends (config : Config) (r : Request) (made : Except Failure Result) (d : Directory) :
    Outcome → Prop where
  | failed (e : Failure) : Ends config r made d ⟨e.status, "", some e, d⟩
  | printed {s : String} (result : made = .ok (.text s)) : Ends config r made d ⟨0, s, none, d⟩
  | shown {format : Format} {v : Value} {text : String}
      (known : Format.ofName (r.format.getD config.outputFormat) = .ok format)
      (result : made = .ok (.document v)) (output : r.output = none)
      (rendered : Document.render format config.indentSize v = .ok text) :
      Ends config r made d ⟨0, text, none, d⟩
  | saved {format : Format} {v : Value} {name : String}
      (known : Format.ofName (r.format.getD config.outputFormat) = .ok format)
      (result : made = .ok (.document v)) (output : r.output = some name) :
      Ends config r made d (.ofSave (Document.save d format config.indentSize name v))

/-- A document is printed, or saved in the file for it, and is found nowhere else. -/
def Delivers (output : Option String) (format : Format) (indent : UInt64) (v : Value)
    (d : Directory) (o : Outcome) : Prop :=
  match output with
  | none => Document.render format indent v = .ok o.output ∧ o.directory = d
  | some name =>
    o.output = "" ∧ ∃ text, Document.savedText format indent name v = .ok text ∧
      Replaces (Document.temporaryName name) name (Document.savedBytes name text) d o.directory

section Ends

variable {config : Config} {r : Request} {made : Except Failure Result} {d : Directory}
  {o : Outcome}

theorem Ends.of_failure (h : Ends config r made d o) (hstatus : o.status ≠ 0) :
    o.output = "" ∧ ChangesOnly (r.output.toList.map Document.temporaryName) d o.directory := by
  cases h with
  | failed => exact ⟨rfl, .refl _ d⟩
  | printed => exact absurd rfl hstatus
  | shown => exact absurd rfl hstatus
  | saved _ _ houtput =>
      rw [Ne, Outcome.status_ofSave_eq_zero_iff] at hstatus
      rw [Outcome.output_ofSave, Outcome.directory_ofSave, houtput]
      exact ⟨rfl, Document.changesOnly_save hstatus⟩

theorem Ends.of_success (h : Ends config r made d o)
    (hmakes : ∀ result, made = .ok result → ∃ v, result = .document v) (hstatus : o.status = 0) :
    ∃ format v, Format.ofName (r.format.getD config.outputFormat) = .ok format ∧
      made = .ok (.document v) ∧ Delivers r.output format config.indentSize v d o := by
  cases h with
  | failed e => exact absurd hstatus e.status_ne_zero
  | printed hresult =>
      obtain ⟨v, hv⟩ := hmakes _ hresult
      cases hv
  | shown hknown hresult houtput hrendered =>
      rw [houtput]
      exact ⟨_, _, hknown, hresult, hrendered, rfl⟩
  | saved hknown hresult houtput =>
      rw [houtput]
      refine ⟨_, _, hknown, hresult, Outcome.output_ofSave _, ?_⟩
      rw [Outcome.directory_ofSave]
      exact Document.replaces_save ((Outcome.status_ofSave_eq_zero_iff _).1 hstatus)

end Ends

end

section

variable [Json.DoubleReader] [Gzip.Encoder]

/-- What is carried out for a request once its settings are read. -/
theorem run_request (r : Request) (home : Option String) (w : World) :
    (r.perform World.host home).run w =
      (attempt ((Format.ofName (r.format.getD (Config.load w.directory home).outputFormat)).mapError
          .unknownFormat) >>= fun format =>
        r.command.perform World.host (Config.load w.directory home)
          (World.host.emit format (Config.load w.directory home).indentSize r.output)).run w := by
  rw [Request.perform]
  exact World.run_settings_bind home _ w

/-- A request in a known format ends with handing on what its command makes. -/
theorem exists_perform_eq {r : Request} {home : Option String} {d : Directory} {format : Format}
    (hknown : Format.ofName (r.format.getD (Config.load d home).outputFormat) = .ok format)
    (input : Bytes) :
    ∃ input', perform r home input d =
      Program.outcome (attempt ((loadAll d input r.command).result (Config.load d home)) >>=
        World.finish (World.host.emit format (Config.load d home).indentSize r.output))
        ⟨d, input', ""⟩ := by
  obtain ⟨input', hrun⟩ := World.exists_run_perform (Config.load d home)
    (World.host.emit format (Config.load d home).indentSize r.output) r.command ⟨d, input, ""⟩
  refine ⟨input', outcome_congr ?_⟩
  rw [run_request, hknown, World.attempt_mapError_ok_bind, hrun]

/-- A document with a file for it is saved there. -/
theorem perform_eq_ofSave {r : Request} {home : Option String} {input : Bytes} {d : Directory}
    {format : Format} {v : Value} {name : String}
    (hknown : Format.ofName (r.format.getD (Config.load d home).outputFormat) = .ok format)
    (hresult : (loadAll d input r.command).result (Config.load d home) = .ok (.document v))
    (houtput : r.output = some name) :
    perform r home input d =
      .ofSave (Document.save d format (Config.load d home).indentSize name v) := by
  obtain ⟨input', hperform⟩ := exists_perform_eq hknown input
  rw [hperform, hresult, World.attempt_ok_bind, houtput]
  exact outcome_emit_some format _ name v d input'

theorem ends_perform (r : Request) (home : Option String) (input : Bytes) (d : Directory) :
    Ends (Config.load d home) r ((loadAll d input r.command).result (Config.load d home)) d
      (perform r home input d) := by
  cases hknown : Format.ofName (r.format.getD (Config.load d home).outputFormat) with
  | error e =>
      have hperform : perform r home input d = ⟨1, "", some (.unknownFormat e), d⟩ := by
        rw [perform, Program.outcome, run_request, hknown]
        rfl
      rw [hperform]
      exact .failed (.unknownFormat e)
  | ok format =>
      obtain ⟨input', hperform⟩ := exists_perform_eq hknown input
      rw [hperform]
      cases hresult : (loadAll d input r.command).result (Config.load d home) with
      | error e => exact .failed e
      | ok result =>
          rw [World.attempt_ok_bind]
          cases result with
          | text s =>
              rw [World.finish, outcome_print]
              exact .printed rfl
          | document v =>
              rw [World.finish]
              cases houtput : r.output with
              | some name =>
                  rw [outcome_emit_some]
                  exact .saved hknown rfl houtput
              | none =>
                  cases hrendered :
                      Document.render format (Config.load d home).indentSize v with
                  | ok text =>
                      rw [outcome_emit_none hrendered]
                      exact .shown hknown rfl houtput hrendered
                  | error e =>
                      rw [World.emit_none, hrendered]
                      exact .failed (.render e)

/-! ## Command lines -/

theorem run_eq_perform {words : List String} {r : Request} (h : readRequest words = .ok r)
    (home : Option String) (input : Bytes) (d : Directory) :
    run words home input d = perform r home input d := by
  rw [run, h]

/-- The names of the files in which documents are to be saved. -/
def outputs (words : List String) : List String :=
  match readRequest words with
  | .ok r => r.output.toList
  | .error _ => []

/-- A run that fails, by itself or because its words are no request, prints nothing and changes no
more than the temporary file for its output. A command that makes a document and does not fail
delivers it. -/
theorem run_fails_or_delivers (words : List String) (home : Option String) (input : Bytes)
    (d : Directory) :
    ((run words home input d).status ≠ 0 →
      (run words home input d).output = "" ∧
        ChangesOnly ((outputs words).map Document.temporaryName) d
          (run words home input d).directory) ∧
    ∀ r, readRequest words = .ok r → r.command.MakesDocument →
      (run words home input d).status = 0 →
      ∃ format v,
        Format.ofName (r.format.getD (Config.load d home).outputFormat) = .ok format ∧
        (loadAll d input r.command).result (Config.load d home) = .ok (.document v) ∧
        Delivers r.output format (Config.load d home).indentSize v d (run words home input d) := by
  constructor
  · intro hstatus
    rw [outputs]
    cases hread : readRequest words with
    | error e =>
        rw [run, hread] at hstatus ⊢
        cases e with
        | usage => exact ⟨rfl, .refl _ d⟩
        | help | version => exact absurd rfl hstatus
    | ok r =>
        rw [run_eq_perform hread] at hstatus ⊢
        exact (ends_perform r home input d).of_failure hstatus
  · intro r hread hmakes hstatus
    rw [run_eq_perform hread] at hstatus ⊢
    exact (ends_perform r home input d).of_success
      (fun result hresult => (hmakes.mapM input).exists_result_eq hresult) hstatus

end

section

open scoped Json.Nearest Gzip.Stored

theorem ofInput_braces : Document.ofInput [123, 125] = .ok (.object []) := by
  have hregular : Value.IsRegular Json.ReadsBack (.object []) :=
    .object List.nodup_nil (List.forall_mem_nil _)
  have hparse : Document.parse none "\x7b\x7d" = .ok (.object []) := by
    show ((Json.parse? (Json.compact (.object []))).or _).elim _ _ = _
    rw [Document.parse?_compact hregular (by decide)]
    rfl
  have hplain : Gzip.magic.isPrefixOf [123, 125] = false := rfl
  have htext : Bytes.text? [123, 125] = some "\x7b\x7d" := by decide +kernel
  simp only [Document.ofInput, hplain, htext, Bool.false_eq_true, if_false, Option.elim_some]
  show (Document.parse none "\x7b\x7d").mapError _ = _
  rw [hparse]
  rfl

/-- The same command line where its output is the name of a directory, and where it is not. -/
theorem run_fails_or_delivers_strip :
    let words := ["strip", "-", "a", "-f", "json", "-o", "out"]
    let input : Bytes := [123, 125]
    let blocked : Directory := { entries := [(["out"], .directory)] }
    ((run words none input blocked).status ≠ 0 ∧ (run words none input blocked).output = "" ∧
      ChangesOnly ["out.tmp"] blocked (run words none input blocked).directory) ∧
    (run words none input .empty).status = 0 ∧ (run words none input .empty).output = "" ∧
      Replaces "out.tmp" "out" (Bytes.ofText "\x7b\x7d\n") .empty
        (run words none input .empty).directory := by
  intro words input blocked
  have hread : readRequest words = .ok ⟨some "json", some "out", .strip "-" ["a"]⟩ := by
    decide +kernel
  have hknown : Format.ofName "json" = .ok .json := by decide +kernel
  have htemporary : Document.temporaryName "out" = "out.tmp" := by decide +kernel
  have htext : Document.savedText .json 2 "out" (.object []) = .ok "\x7b\x7d\n" := by
    decide +kernel
  have hresult (d : Directory) :
      (loadAll d input (.strip "-" ["a"])).result {} = .ok (.document (.object [])) := by
    have hall : loadAll d input (.strip "-" ["a"]) = .strip (Document.ofInput input) ["a"] := rfl
    have hpaths : ["a"].mapM Command.readPath = .ok [[.key "a"]] := by decide +kernel
    rw [hall, ofInput_braces]
    show (["a"].mapM Command.readPath >>= _) = _
    rw [hpaths]
    rfl
  have hrun (d : Directory) :
      run words none input d = .ofSave (Document.save d .json 2 "out" (.object [])) := by
    rw [run_eq_perform hread]
    exact perform_eq_ofSave hknown (hresult d) rfl
  have hblocked : blocked.locate? "out" = some ["out"] :=
    Directory.locate?_of_isPlain rfl (by decide +kernel)
  have hfails : (run words none input blocked).status ≠ 0 := by
    rw [hrun, Ne, Outcome.status_ofSave_eq_zero_iff, Document.save_eq_ok_iff]
    rintro ⟨-, -, place, hplace, hfree⟩
    rw [hblocked] at hplace
    cases hplace
    exact hfree rfl
  have hsucceeds : (run words none input .empty).status = 0 := by
    rw [hrun, Outcome.status_ofSave_eq_zero_iff]
    exact Document.save_empty_eq_ok (by decide) (by decide +kernel) (by decide +kernel)
  have houtputs : (outputs words).map Document.temporaryName = ["out.tmp"] := by
    rw [outputs, hread, ← htemporary]
    rfl
  have hfailed := (run_fails_or_delivers words none input blocked).1 hfails
  rw [houtputs] at hfailed
  obtain ⟨format, v, hformat, hv, houtput, text, hsaved, hreplaces⟩ :=
    (run_fails_or_delivers words none input .empty).2 _ hread trivial hsucceeds
  obtain rfl : Format.json = format := Except.ok.inj (hknown.symm.trans hformat)
  obtain rfl : Value.object [] = v :=
    Result.document.inj (Except.ok.inj ((hresult .empty).symm.trans hv))
  obtain rfl : "\x7b\x7d\n" = text := Except.ok.inj (htext.symm.trans hsaved)
  have hbytes : Document.savedBytes "out" "\x7b\x7d\n" = Bytes.ofText "\x7b\x7d\n" := by
    decide +kernel
  rw [htemporary, hbytes] at hreplaces
  exact ⟨⟨hfails, hfailed⟩, hsucceeds, houtput, hreplaces⟩

end

end CommandLine

end DocPath

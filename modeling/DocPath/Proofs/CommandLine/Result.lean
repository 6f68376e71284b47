import DocPath.CommandLine.Run

/-!
# What commands make

What a command makes is a function of its documents: a text, or a document that is printed or saved
in the end. Carrying out a command in a world is the same as reading its documents, making this of
them and handing it on, although commands load, read their operands and print in turns.
-/

namespace DocPath

/-- What a command makes. -/
inductive Result where
  | text (s : String)
  | document (v : Value)

namespace Command

/-- Does something with each document of a command, in order. -/
def mapM {m : Type → Type} [Monad m] {δ ε : Type} (f : δ → m ε) : Command δ → m (Command ε)
  | parse path => return parse path
  | get document path => return get (← f document) path
  | set document path value preferArrays => return set (← f document) path value preferArrays
  | strip document patterns => return strip (← f document) patterns
  | merge base overlay joining => do
    let base' ← f base
    let overlay' ← f overlay
    return merge base' overlay' joining
  | template text assignments none => return template text assignments none
  | template text assignments (some document) =>
    return template text assignments (some (← f document))

variable [Json.DoubleReader]

/-- What a command makes of its documents. -/
def result (config : Config) : Command (Except LoadError Value) → Except Failure Result
  | parse path => do
    let p ← readPath path
    return .text (String.join (p.map segmentLine))
  | get document path => do
    let v ← document.mapError .load
    let p ← readPath path
    match v.get? p with
    | some w => return .document w
    | none => throw (.noValue p)
  | set document path value preferArrays => do
    let v ← document.mapError .load
    let p ← readPath path
    let x := Document.ofArgument value
    return .document (Value.set (preferArrays || config.preferArrays) (some v) p x)
  | strip document patterns => do
    let v ← document.mapError .load
    let ps ← patterns.mapM readPath
    return .document ((v.strip ps).getD .null)
  | merge base overlay joining => do
    let b ← base.mapError .load
    let o ← overlay.mapError .load
    let ps ← joining.mapM readPath
    return .document ((Value.merge (config.concatPaths ++ ps) (some b) (some o)).getD .null)
  | template text assignments document => do
    let entries ← assignments.mapM readVariable
    let v ← document.mapM fun d => d.mapError .load
    return .text (Bindings.expand ⟨Table.ofEntries entries, v⟩ text ++ "\n")

end Command

namespace CommandLine

section

variable [Json.DoubleReader]

/-- Loads a document; the state is what is left of the standard input. -/
def loadDocument (d : Directory) (name : String) : StateM Bytes (Except LoadError Value) := do
  if name = Document.standardInput then
    let input ← get
    set ([] : Bytes)
    return Document.ofInput input
  else return Document.load d name

/-- Loads the documents of a command, as far as they can be loaded. -/
def loadAll (d : Directory) (input : Bytes) (c : Command String) :
    Command (Except LoadError Value) :=
  (c.mapM (loadDocument d) input).1

end

namespace World

/-! ## Single actions -/

section

variable {α β : Type}

theorem attempt_ok_bind (a : α) (f : α → Program β) : attempt (.ok a) >>= f = f a := rfl

theorem attempt_mapError_ok_bind {ε : Type} (e : ε → Failure) (a : α) (f : α → Program β) :
    attempt ((Except.ok a).mapError e) >>= f = f a := rfl

theorem run_change_bind (steps : List Step) (f : Bool → Program α) (w : World) :
    ((host.change steps : Program Bool) >>= f).run w =
      (f (w.directory.run steps).2).run { w with directory := (w.directory.run steps).1 } := rfl

theorem run_settings_bind (home : Option String) (f : Config → Program α) (w : World) :
    ((host.settings home : Program Config) >>= f).run w =
      (f (Config.load w.directory home)).run w := by
  cases home with
  | none => rfl
  | some home => rfl

/-- Lines that are printed one after the other are printed joined. -/
theorem forM_print (lines : List α) (line : α → String) :
    (lines.forM fun a => (host.print (line a) : Program Unit)) =
      host.print (String.join (lines.map line)) := by
  funext w
  show _ = (Except.ok (), { w with printed := w.printed ++ String.join (lines.map line) })
  induction lines generalizing w with
  | nil =>
      rw [List.map_nil, String.join_nil, String.append_empty]
      rfl
  | cons a lines ih =>
      show (lines.forM fun a => (host.print (line a) : Program Unit))
        { w with printed := w.printed ++ line a } = _
      rw [ih, List.map_cons, String.join_cons, String.append_assoc]

theorem run_load_bind [Json.DoubleReader] (name : String) (f : Value → Program α) (w : World) :
    (host.load name >>= f).run w =
      (attempt ((loadDocument w.directory name w.input).1.mapError .load) >>= f).run
        { w with input := (loadDocument w.directory name w.input).2 } := by
  unfold Host.load loadDocument
  split
  · rfl
  · rfl

theorem emit_none [Gzip.Encoder] (format : Format) (indent : UInt64) (v : Value) :
    host.emit format indent none v =
      attempt ((Document.render format indent v).mapError .render) >>= fun text =>
        (host.print text : Program Unit) := rfl

/-- A document with a file for it is saved there. -/
theorem run_emit_some [Gzip.Encoder] (format : Format) (indent : UInt64) (name : String)
    (v : Value) (w : World) :
    (host.emit format indent (some name) v).run w =
      ((Document.save w.directory format indent name v).2.mapError .save,
        { w with directory := (Document.save w.directory format indent name v).1 }) := by
  simp only [Host.emit, Document.save]
  cases Document.savedText format indent name v with
  | error e => rfl
  | ok text =>
      simp only [attempt_mapError_ok_bind, run_change_bind]
      cases (w.directory.run (Document.saveSteps name text)).2 with
      | true => rfl
      | false => rfl

end

/-! ## Commands -/

/-- What is done with a result in the end. -/
def finish (emit : Value → Program Unit) : Result → Program Unit
  | .text s => host.print s
  | .document v => emit v

variable {emit : Value → Program Unit}

/-- What is done with what an attempt finds can be done in the end. -/
theorem attempt_bind_congr {α : Type} {x : Except Failure α} {f : α → Except Failure Result}
    {g : α → Program Unit} (h : ∀ a, g a = attempt (f a) >>= finish emit) :
    attempt x >>= g = attempt (x >>= f) >>= finish emit := by
  cases x with
  | error e => rfl
  | ok a => exact h a

variable [Json.DoubleReader]

/-- Going on with a document that is loaded first. -/
theorem exists_run_load_bind (name : String) {f : Value → Program Unit}
    {g : Value → Except Failure Result} (h : ∀ v, f v = attempt (g v) >>= finish emit) (w : World) :
    ∃ input, (host.load name >>= f).run w =
      (attempt ((loadDocument w.directory name w.input).1.mapError .load >>= g) >>=
        finish emit).run { w with input } := by
  refine ⟨(loadDocument w.directory name w.input).2, ?_⟩
  rw [run_load_bind]
  exact congrFun (attempt_bind_congr h) _

/-- Carrying out a command is loading its documents and handing on what it makes of them. Only the
rest of the standard input tells which documents were loaded. -/
theorem exists_run_perform (config : Config) (emit : Value → Program Unit) (c : Command String)
    (w : World) :
    ∃ input, (c.perform host config emit).run w =
      (attempt ((loadAll w.directory w.input c).result config) >>= finish emit).run
        { w with input } := by
  cases c with
  | parse path =>
      refine ⟨w.input, congrFun (attempt_bind_congr fun p => ?_) w⟩
      exact forM_print p Command.segmentLine
  | get document path =>
      refine exists_run_load_bind document (fun v => attempt_bind_congr fun p => ?_) w
      cases v.get? p with
      | none => rfl
      | some x => rfl
  | set document path value preferArrays =>
      refine exists_run_load_bind document (fun v => attempt_bind_congr fun p => ?_) w
      rfl
  | strip document patterns =>
      refine exists_run_load_bind document (fun v => attempt_bind_congr fun ps => ?_) w
      rfl
  | merge base overlay joining =>
      -- The second document is loaded only if the first one can be.
      obtain ⟨found, rest, hbase⟩ :
          ∃ found rest, loadDocument w.directory base w.input = (found, rest) := ⟨_, _, rfl⟩
      have hall : loadAll w.directory w.input (.merge base overlay joining) =
          .merge found (loadDocument w.directory overlay rest).1 joining := by
        show Command.merge (loadDocument w.directory base w.input).1
          (loadDocument w.directory overlay (loadDocument w.directory base w.input).2).1 joining = _
        rw [hbase]
      rw [Command.perform, run_load_bind, hbase, hall]
      cases found with
      | error e => exact ⟨rest, rfl⟩
      | ok b =>
          refine exists_run_load_bind overlay (fun o => attempt_bind_congr fun ps => ?_)
            { w with input := rest }
          rfl
  | template text assignments document =>
      cases document with
      | none =>
          refine ⟨w.input, congrFun (attempt_bind_congr fun entries => ?_) w⟩
          rfl
      | some document =>
          have hall : loadAll w.directory w.input (.template text assignments (some document)) =
              .template text assignments (some (loadDocument w.directory document w.input).1) := rfl
          -- The document is loaded only if the variables can be read.
          simp only [hall, Command.perform, Command.result, Option.mapM_some, bind_map_left]
          cases assignments.mapM Command.readVariable with
          | error e => exact ⟨w.input, rfl⟩
          | ok entries =>
              refine exists_run_load_bind document (fun v => ?_) w
              rfl

end World

end CommandLine

end DocPath

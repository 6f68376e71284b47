import DocPath.Directory.Step

/-!
# Interrupted runs

A run of steps can end early: between two steps, or while a file is being written, when only the
start of what was to be written is there. Whatever a step that fails or is cut short leaves behind
is among these states.
-/

namespace DocPath.Directory

/-- A state in which a run of steps can be left. -/
inductive Leaves : Directory → List Step → Directory → Prop where
  | stop (d : Directory) (steps : List Step) : Leaves d steps d
  | partly {d d' : Directory} {name : String} {content start : Bytes} {steps : List Step}
      (begins : start <+: content) (done : d.append? name start = some d') :
      Leaves d (.append name content :: steps) d'
  | next {d d' d'' : Directory} {s : Step} {steps : List Step} (done : d.step? s = some d')
      (rest : Leaves d' steps d'') : Leaves d (s :: steps) d''

end DocPath.Directory

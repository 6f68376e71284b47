import DocPath.Template.Scanner
import DocPath.Value.Access
import DocPath.Value.Text

/-!
# What the names of a template stand for

A name stands for a variable when there is one, else for the value at the path that it spells.
-/

namespace DocPath

/-- Variables and a document that names are looked up in. -/
structure Bindings where
  values : Table String
  document : Option Value

namespace Bindings

/-- The text that a name stands for. -/
def lookup? (b : Bindings) (name : String) : Option String :=
  match b.values.get? name with
  | some text => some text
  | none => do
    let document ← b.document
    let path ← Path.parse? name
    let v ← document.get? path
    return v.text

/-- The text of a template; names that stand for nothing vanish. -/
def expand (b : Bindings) (text : String) : String :=
  Template.expand (fun name => (b.lookup? name).getD "") text

end Bindings

end DocPath

import DocPath.Template.Bindings
import DocPath.Proofs.Path.Printer
import DocPath.Proofs.Template.Encoding

/-!
# Addresses in templates

A name in parentheses is read back from its escaped text, and a path from its canonical text. So a
template can name every location of a document, by the canonical text of its path.
-/

namespace DocPath

namespace Template

theorem expand_eq_fill (resolve : String → String) (text : String) :
    expand resolve text = Id.run (fill (fun name => pure (resolve name)) (pieces text.toList)) := by
  rw [expand, expandM_eq_fill]

theorem expand_placeholder (resolve : String → String) (name : String) :
    expand resolve (String.ofList (placeholder name.toList)) = resolve name := by
  have hpieces := pieces_placeholder name.toList []
  rw [List.append_nil, pieces_nil, String.ofList_toList] at hpieces
  rw [expand_eq_fill, String.toList_ofList, hpieces]
  simp [fill, write]

end Template

namespace Path

theorem parse?_text (p : Path) : parse? p.text = some p := by
  have hspells : SpellsAtoms true p.text.toList p := by
    rw [text, String.toList_ofList]
    exact spellsAtoms_chars true p
  rw [parse?, parse_eq_ok_iff.2 hspells]
  rfl

end Path

namespace Bindings

/-- The canonical text of a path stands for the variable of that name, and where there is none for
the value at the path. -/
theorem lookup?_text (values : Table String) (document : Value) (p : Path) :
    lookup? ⟨values, some document⟩ p.text =
      (values.get? p.text).or ((document.get? p).map Value.text) := by
  rw [lookup?]
  cases values.get? p.text with
  | some text => rfl
  | none =>
      cases hread : document.get? p with
      | none => simp [Path.parse?_text, hread]
      | some v => simp [Path.parse?_text, hread]

/-- Every location of every document is addressed by the placeholder of its canonical text. -/
theorem expand_placeholder_text (values : Table String) (document : Value) (p : Path) :
    expand ⟨values, some document⟩ (String.ofList (Template.placeholder p.text.toList)) =
      match values.get? p.text, document.get? p with
      | some text, _ => text
      | none, some v => v.text
      | none, none => "" := by
  rw [expand, Template.expand_placeholder, lookup?_text]
  cases values.get? p.text with
  | some text => rfl
  | none =>
      cases document.get? p with
      | none => rfl
      | some v => rfl

-- A key with a dot is quoted, and the dollar in it doubled.
example :
    String.ofList (Template.placeholder (Path.text [.key "a.$", .index 3]).toList) =
      "$([\"a.$$\"][3])" := by
  rfl

end Bindings

end DocPath

import DocPath.Yaml.Alias
import DocPath.Yaml.Lexer

/-!
# Reading YAML texts

A text holds one document. Its tokens make a node, the node a tree and the tree a value.
-/

namespace DocPath.Yaml

/-- The value that a YAML text spells. -/
def parse? (text : String) : Option Value := do
  let tokens ← tokens? text.toList
  let node ← Node.ofTokens? tokens
  let tree ← node.toTree?
  return tree.toValue

end DocPath.Yaml

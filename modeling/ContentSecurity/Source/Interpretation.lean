import ContentSecurity.Grammar.Tree
import ContentSecurity.Reading
import ContentSecurity.Source
/-!
# From trees to sources

`Source.interpret` turns the tree of a source list, or of a list of ancestors, into sources, one
for each entry.  It takes any tree whatever; the first entry of another shape than the grammar
gives it is reported as a defect, where it is found to lack something.
-/

namespace ContentSecurity

open Grammar

namespace Grammar.Tree

/-- The text of the first child of a rule, or of the node itself if it is of that rule. -/
def part? (tree : Tree) (input : String) (rule : Rule) : Option String :=
  (tree.find? [rule] 1).map (·.text input)

/-- The text of a part that cannot be missing. -/
def part (tree : Tree) (input : String) (rule : Rule) : Reading String :=
  match tree.part? input rule with
  | some text => return text
  | none => .report (.missingPart tree.rule rule)

/-- The number of children is as expected. -/
def checkCount (tree : Tree) (expected : Nat) : Reading Unit :=
  if tree.children.length = expected then
    return ()
  else
    .report (.wrongCount tree.rule tree.children.length expected)

end Grammar.Tree

/-- What the tree of a source means. -/
def Expression.ofTree (input : String) (tree : Tree) : Reading Expression :=
  match tree.rule with
  | .schemeSource => do
    let scheme ← tree.part input .schemePart
    return .scheme scheme
  | .hostSource => do
    let name ← tree.part input .hostPart
    return .host {
      scheme := tree.part? input .schemePart
      name
      port := tree.part? input .portPart
      path := tree.part? input .pathPart }
  | .keywordSource | .ancestorKeywordSource => return .ofKeyword (tree.text input)
  | .nonceSource => do
    tree.checkCount 1
    let value ← tree.part input .base64Value
    return .nonce value
  | .hashSource => do
    tree.checkCount 2
    let name ← tree.part input .hashAlgorithm
    match HashAlgorithm.parse? name with
    | none => .report (.unknownAlgorithm name)
    | some algorithm =>
      let digest ← tree.part input .base64Value
      return .hash algorithm digest
  | rule => .report (.foreignSource rule)

namespace Source

/-- The source in one entry of the list matched by `list`. -/
def ofEntry (input : String) (list : Rule) (entry : Tree) : Reading Source :=
  match entry.children with
  | [tree] => return .written (tree.text input) (← Expression.ofTree input tree)
  | children => .report (.notSingle entry.rule list children.length)

/-- The sources of a list that the rule `list` matched. -/
def interpret (input : String) (list : Rule) (tree : Tree) : Reading (List Source) :=
  (tree.search [.sourceExpression, .ancestorSource] 2).mapM (ofEntry input list)

end Source

end ContentSecurity

import ContentSecurity.Error
import ContentSecurity.Grammar.Productions
/-!
# Matching a rule

`Rule.trees` matches a rule at the start of a text.  It need not take the whole text unless the
rule says so.  A rule that is recorded gives one tree; the others give none.
-/

namespace ContentSecurity.Grammar.Rule

/-- The text does not match the rule; `position` tells where. -/
def mismatch (rule : Rule) (input : String) (position : Nat) : Error :=
  .mismatch rule.name none input position

/-- The trees of a rule at the start of a text. -/
def trees (rule : Rule) (input : String) : Except Error (List Tree) :=
  match rule.phrase.read (.start input) with
  | ⟨_, some (trees, _)⟩ => .ok trees
  | ⟨reach, none⟩ => .error (rule.mismatch input reach)

/-- The tree of a rule at the start of a text; no tree counts as a mismatch. -/
def tree (rule : Rule) (input : String) : Except Error Tree :=
  match rule.trees input with
  | .ok (tree :: _) => .ok tree
  | .ok [] => .error (rule.mismatch input 0)
  | .error error => .error error

end ContentSecurity.Grammar.Rule

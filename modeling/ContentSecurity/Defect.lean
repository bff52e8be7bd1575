import ContentSecurity.Grammar.Rule
import ContentSecurity.Text.Quoted
/-!
# Defects of parse trees

The functions that turn trees into values expect the shapes that the grammar produces.  A tree of
another shape, which only a hand-built tree or a fault of this library can have, is reported as a
defect.
-/

namespace ContentSecurity

open Grammar

/-- What is wrong with the shape of a parse tree. -/
inductive Defect where
  /-- An entry of a list does not consist of exactly one tree. -/
  | notSingle (entry list : Rule) (count : Nat)
  /-- A node has another number of children than its rule gives it. -/
  | wrongCount (node : Rule) (count expected : Nat)
  /-- A node lacks a part that its rule always has. -/
  | missingPart (node part : Rule)
  /-- A directive, found between two offsets, has no name. -/
  | namelessDirective (start stop : Nat)
  /-- A hash source names an algorithm that does not exist. -/
  | unknownAlgorithm (text : String)
  /-- An entry of a source list is of a rule that is no kind of source. -/
  | foreignSource (rule : Rule)
  /-- An entry of a trusted-types list is of a rule that is no kind of expression. -/
  | foreignExpression (rule : Rule)
  /-- Any other, in words. -/
  | described (text : String)
  deriving DecidableEq, Repr

/-- A defect in words. -/
def Defect.message : Defect → String
  | .notSingle entry list count =>
    entry.name ++ " in " ++ list.name ++ s!" has {count} children, expected 1"
  | .wrongCount node count expected => node.name ++ s!" has {count} children, expected {expected}"
  | .missingPart node part => node.name ++ " without mandatory " ++ part.name
  | .namelessDirective start stop =>
    s!"serialized-directive at {start}..{stop} without directive-name"
  | .unknownAlgorithm text => "hash-algorithm matched unknown " ++ Text.quoted text
  | .foreignSource rule => "unrecognized source expression rule " ++ rule.name
  | .foreignExpression rule => "unrecognized tt-expression rule " ++ rule.name
  | .described text => text

end ContentSecurity

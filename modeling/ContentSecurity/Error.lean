import ContentSecurity.Defect
/-!
# Errors

Why a header, or the text of a rule, could not be read.  `Error.message` is the wording.
-/

namespace ContentSecurity

/-- A quantity that can be limited. -/
inductive Quantity where
  | headerLength
  | directiveCount
  | sourceCount
  /-- A quantity in words, other than those that reading a header limits. -/
  | other (name : String)
  deriving DecidableEq, Repr

namespace Quantity

/-- The words for a quantity. -/
def name : Quantity → String
  | .headerLength => "header length"
  | .directiveCount => "directive count"
  | .sourceCount => "source count"
  | .other name => name

/-- The quantity for these words. -/
def ofName (name : String) : Quantity :=
  if name == headerLength.name then .headerLength
  else if name == directiveCount.name then .directiveCount
  else if name == sourceCount.name then .sourceCount
  else .other name

end Quantity

/-- Why something could not be read. -/
inductive Error where
  /-- A text, the value of `directive` if one is named, does not match a rule; `position` is the
  offset of the mismatch. -/
  | mismatch (rule : String) (directive : Option String) (input : String) (position : Nat)
  /-- The matcher itself failed. -/
  | matcherFailure (rule message : String)
  /-- A parse tree has an unexpected shape. -/
  | defect (fault : Defect)
  /-- There is more of something than is allowed. -/
  | limitExceeded (quantity : Quantity) (limit actual : Nat)
  deriving DecidableEq, Repr

namespace Error

/-- An error in words. -/
def message : Error → String
  | .mismatch rule directive input position =>
    let scope :=
      match directive with
      | some name => s!" (directive {name})"
      | none => ""
    "Syntax error: " ++ Text.quoted input ++ s!" does not match {rule}{scope} at byte {position}"
  | .matcherFailure rule message => s!"Grammar engine failure while matching {rule}: {message}"
  | .defect fault => "Internal invariant violated: " ++ fault.message
  | .limitExceeded quantity limit actual =>
    "Limit exceeded: " ++ quantity.name ++ s!" is {actual}, limit is {limit}"

/-- The text was refused by the grammar. -/
def isMismatch : Error → Bool
  | .mismatch .. => true
  | _ => false

/-- The fault lies in the library and not in the text. -/
def isInternal : Error → Bool
  | .matcherFailure .. | .defect _ => true
  | _ => false

/-- Name the directive in whose value a mismatch was found. -/
def inDirective (name : String) : Error → Error
  | .mismatch rule _ input position => .mismatch rule (some name) input position
  | error => error

end Error

end ContentSecurity

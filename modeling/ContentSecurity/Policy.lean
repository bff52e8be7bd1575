import ContentSecurity.Directive
import ContentSecurity.Event
/-!
# Policies

A policy keeps its directives in three sequences: the recognized ones that are in force, the
unrecognized ones, and those that repeat a name and have no effect.  `Placement` tells where a
directive goes, from its name and the names that were there before; a policy made of a list of
directives (`Policy.ofDirectives`) and one to which they are added one by one (`Policy.push`) place
them alike.

A policy that was read keeps the text of its header, and a policy that is edited loses it.  Policies
are equivalent (`≈`) when their sequences are, whatever text they keep.
-/

namespace ContentSecurity

open Directive (ListKind)

/-- Where a directive goes. -/
inductive Placement where
  | recognized
  | unrecognized
  | ineffective
  deriving DecidableEq, Repr

/-- The place of a directive after others with the names `seen`. -/
def Directive.placement (seen : List String) (directive : Directive) : Placement :=
  if directive.name ∈ seen then .ineffective
  else if directive.isOther then .unrecognized
  else .recognized

/-- A content security policy. -/
structure Policy where
  /-- The recognized directives in force. -/
  directives : List Directive := []
  /-- The unrecognized directives. -/
  otherDirectives : List Directive := []
  /-- The directives that repeat a name. -/
  ineffectiveDirectives : List Directive := []
  /-- The header that the policy was read from. -/
  raw : Option String := none
  deriving DecidableEq, Repr

/-- Change the first member of a list that satisfies a condition. -/
def updateFirst {α : Type} (condition : α → Bool) (f : α → α) : List α → List α
  | [] => []
  | a :: rest => if condition a then f a :: rest else a :: updateFirst condition f rest

namespace Policy

/-! ### Looking -/

/-- The directives in force, in the order in which they are written. -/
def effectiveDirectives (policy : Policy) : List Directive :=
  policy.directives ++ policy.otherDirectives

/-- No directive is in force. -/
def isEmpty (policy : Policy) : Bool :=
  policy.directives.isEmpty && policy.otherDirectives.isEmpty

/-- The directive in force of a name, in any letter case. -/
def directive? (policy : Policy) (name : String) : Option Directive :=
  policy.effectiveDirectives.find? (·.name == name.toLower)

/-- The sources of the directive in force of a kind. -/
def sources? (policy : Policy) (kind : ListKind) : Option (List Source) :=
  (policy.directive? kind.name).bind Directive.sources?

/-! ### Writing -/

/-- The policy in canonical form: what is in force, with `"; "` between. -/
def render (policy : Policy) : String :=
  "; ".intercalate (policy.effectiveDirectives.map Directive.text)

/-- The header that the policy was read from, or its canonical form if there is none. -/
def text (policy : Policy) : String :=
  policy.raw.getD policy.render

/-! ### Building and editing -/

/-- Put a directive in front of a sequence. -/
def prepend (policy : Policy) (directive : Directive) : Placement → Policy
  | .recognized => { policy with directives := directive :: policy.directives }
  | .unrecognized => { policy with otherDirectives := directive :: policy.otherDirectives }
  | .ineffective =>
    { policy with ineffectiveDirectives := directive :: policy.ineffectiveDirectives }

/-- Put a directive behind a sequence. -/
def append (policy : Policy) (directive : Directive) : Placement → Policy
  | .recognized => { policy with directives := policy.directives ++ [directive] }
  | .unrecognized => { policy with otherDirectives := policy.otherDirectives ++ [directive] }
  | .ineffective =>
    { policy with ineffectiveDirectives := policy.ineffectiveDirectives ++ [directive] }

/-- The policy of directives that follow others with the names `seen`. -/
def place (seen : List String) : List Directive → Policy
  | [] => {}
  | directive :: rest =>
    (place (directive.name :: seen) rest).prepend directive (directive.placement seen)

/-- The policy that consists of some directives, in this order. -/
def ofDirectives (directives : List Directive) : Policy :=
  place [] directives

/-- The names in force. -/
def effectiveNames (policy : Policy) : List String :=
  policy.effectiveDirectives.map Directive.name

/-- Add a directive at the end of the sequence where it belongs. -/
def push (policy : Policy) (directive : Directive) : Policy :=
  { policy.append directive (directive.placement policy.effectiveNames) with raw := none }

/-- What happens when a directive is added. -/
def pushEvents (policy : Policy) (directive : Directive) : List Event :=
  match directive.placement policy.effectiveNames with
  | .ineffective => [.alreadyPresent directive.name]
  | _ => []

/-- A recognized directive of this kind's name is in force. -/
def hasList (policy : Policy) (kind : ListKind) : Bool :=
  policy.directives.any (·.name == kind.name)

/-- Merge sources into the source list of a kind, which is made at the end if there is none.  The
source `'none'` is never merged in. -/
def merge (policy : Policy) (kind : ListKind) (sources : List Source) : Policy :=
  let incoming := sources.filter (!·.isNone)
  if policy.hasList kind then
    { policy with
      directives := updateFirst (·.name == kind.name) (·.mergeSources incoming) policy.directives
      raw := none }
  else
    { policy with
      directives := policy.directives ++ [.sourceList kind incoming]
      raw := none }

/-- What happens when sources are merged. -/
def mergeEvents (policy : Policy) (kind : ListKind) : List Event :=
  if policy.hasList kind then [] else [.synthesised kind.name]

/-- Change the directive in force of a name, in any letter case, and nothing else. -/
def modify (policy : Policy) (name : String) (f : Directive → Directive) : Policy :=
  if policy.directives.any (·.name == name.toLower) then
    { policy with
      directives := updateFirst (·.name == name.toLower) f policy.directives }
  else
    { policy with
      otherDirectives := updateFirst (·.name == name.toLower) f policy.otherDirectives }

/-! ### Equivalence -/

/-- The same policy, written in canonical form and without its header. -/
def plain (policy : Policy) : Policy :=
  { directives := policy.directives.map Directive.plain
    otherDirectives := policy.otherDirectives.map Directive.plain
    ineffectiveDirectives := policy.ineffectiveDirectives.map Directive.plain
    raw := none }

/-- Policies that mean the same. -/
instance : Setoid Policy where
  r a b := a.plain = b.plain
  iseqv := ⟨fun _ => rfl, fun h => h.symm, fun h₁ h₂ => h₁.trans h₂⟩

instance (a b : Policy) : Decidable (a ≈ b) :=
  inferInstanceAs (Decidable (a.plain = b.plain))

end Policy

end ContentSecurity

import ContentSecurity.Directive.Kind
import ContentSecurity.Source
/-!
# Directives

A directive has a name, in small letters for look-up, a typed value, its `Body`, and the name and
the value as they were written.  An unrecognized directive has nothing but its written value.

Two directives are equivalent (`≈`) when they have the same name and equivalent values; how they
were written does not matter, except that the written value is all there is of an unrecognized
one.  The plain form of a directive is the same directive, written in canonical form.
-/

namespace ContentSecurity

/-- One entry of a trusted-types list. -/
inductive TrustedType where
  | policyName (name : String)
  /-- A keyword, without its quotes and in small letters. -/
  | keyword (word : String)
  | wildcard
  deriving DecidableEq, Repr

/-- An entry of a trusted-types list in canonical form. -/
def TrustedType.text : TrustedType → String
  | .policyName name => name
  | .keyword word => "'" ++ word ++ "'"
  | .wildcard => "*"

/-- What to do about peer-to-peer connections. -/
inductive Webrtc where
  | allow
  | block
  deriving DecidableEq, Repr

namespace Webrtc

def name : Webrtc → String
  | .allow => "allow"
  | .block => "block"

def all : List Webrtc :=
  [.allow, .block]

/-- The value of exactly this name. -/
def ofName? (name : String) : Option Webrtc :=
  all.find? (·.name == name)

end Webrtc

namespace Directive

/-- The value of a directive. -/
inductive Body where
  | sourceList (kind : ListKind) (sources : List Source)
  | sandbox (tokens : List String)
  | reportUri (uris : List String)
  | reportTo (group : String)
  | requireSriFor (resources : List String)
  | trustedTypes (expressions : List TrustedType)
  | requireTrustedTypesFor (sinkGroups : List String)
  | webrtc (value : Webrtc)
  | upgradeInsecureRequests
  | blockAllMixedContent
  /-- The name is not recognized, so the value is not understood. -/
  | other
  deriving DecidableEq, Repr

namespace Body

/-- Items with single spaces between them. -/
def joined (items : List String) : String :=
  " ".intercalate items

/-- The canonical form of a value, or `written` if the value is not understood. -/
def text (written : String) : Body → String
  | .sourceList _ sources => joined (sources.map Source.text)
  | .sandbox tokens => joined tokens
  | .reportUri uris => joined uris
  | .reportTo group => group
  | .requireSriFor resources => joined resources
  | .trustedTypes expressions => joined (expressions.map TrustedType.text)
  | .requireTrustedTypesFor sinkGroups => joined (sinkGroups.map fun group => "'" ++ group ++ "'")
  | .webrtc value => value.name
  | .upgradeInsecureRequests => ""
  | .blockAllMixedContent => ""
  | .other => written

/-- The same value with every source written in canonical form. -/
def plain : Body → Body
  | .sourceList kind sources => .sourceList kind (sources.map Source.plain)
  | body => body

/-- The sources of a source list. -/
def sources? : Body → Option (List Source)
  | .sourceList _ sources => some sources
  | _ => none

/-- Change the sources of a source list; nothing else has any. -/
def mapSources (f : List Source → List Source) : Body → Body
  | .sourceList kind sources => .sourceList kind (f sources)
  | body => body

def isOther : Body → Bool
  | .other => true
  | _ => false

end Body

end Directive

/-- One directive of a policy. -/
structure Directive where
  /-- The name in small letters. -/
  name : String
  /-- The name as it was written. -/
  rawName : String
  /-- The value as it was written. -/
  rawValue : String
  body : Directive.Body
  deriving DecidableEq, Repr

namespace Directive

/-- The value in canonical form. -/
def value (directive : Directive) : String :=
  directive.body.text directive.rawValue

/-- The directive in canonical form. -/
def text (directive : Directive) : String :=
  if directive.value.isEmpty then directive.name else directive.name ++ " " ++ directive.value

/-- A directive of a kind, written in canonical form. -/
def ofBody (kind : Kind) (body : Body) : Directive :=
  { name := kind.name, rawName := kind.name, rawValue := body.text "", body }

/-- A source list, written in canonical form. -/
def sourceList (kind : ListKind) (sources : List Source) : Directive :=
  ofBody (.sourceList kind) (.sourceList kind sources)

/-- A directive that is not recognized. -/
def unrecognized (rawName rawValue : String) : Directive :=
  { name := rawName.toLower, rawName, rawValue, body := .other }

def isOther (directive : Directive) : Bool :=
  directive.body.isOther

/-- The kind that the name stands for; none if the value is not understood. -/
def kind? (directive : Directive) : Option Kind :=
  if directive.isOther then none else Kind.ofName? directive.name

/-- The sources of a source list. -/
def sources? (directive : Directive) : Option (List Source) :=
  directive.body.sources?

/-- Change the sources of a source list and nothing else, not even the written value. -/
def mapSources (f : List Source → List Source) (directive : Directive) : Directive :=
  { directive with body := directive.body.mapSources f }

/-- Merge sources into a source list and write its value anew.  Another directive stays as it
is. -/
def mergeSources (incoming : List Source) (directive : Directive) : Directive :=
  match directive.body with
  | .sourceList kind sources =>
    let body := Body.sourceList kind (Source.merge sources incoming)
    { directive with rawValue := body.text "", body }
  | _ => directive

/-- The same directive, written in canonical form. -/
def plain (directive : Directive) : Directive :=
  { name := directive.name
    rawName := directive.name
    rawValue := directive.value
    body := directive.body.plain }

/-- Directives that mean the same. -/
instance : Setoid Directive where
  r a b := a.plain = b.plain
  iseqv := ⟨fun _ => rfl, fun h => h.symm, fun h₁ h₂ => h₁.trans h₂⟩

instance (a b : Directive) : Decidable (a ≈ b) :=
  inferInstanceAs (Decidable (a.plain = b.plain))

end Directive

end ContentSecurity

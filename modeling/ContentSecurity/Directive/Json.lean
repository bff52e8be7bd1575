import ContentSecurity.Directive
import ContentSecurity.Source.Json
/-!
# The JSON form of directives

A directive is a record of four fields.  Its value is a variant, tagged by `type`.  An entry of a
trusted-types list is a pair of its `kind` and its text, `value`.
-/

namespace ContentSecurity

namespace TrustedType

/-- The JSON form of a trusted-types entry. -/
def toJson : TrustedType → Json
  | .policyName name => .object [("kind", .string "policy-name"), ("value", .string name)]
  | .keyword word => .object [("kind", .string "keyword"), ("value", .string word)]
  | .wildcard => .object [("kind", .string "wildcard")]

/-- The tags of all kinds of trusted-types entry, in the order by which they may be numbered. -/
def tags : List String :=
  ["policy-name", "keyword", "wildcard"]

/-- Read the text of an entry with this tag.  A wildcard has none, or `null`. -/
def ofValue? (tag : String) (value : Option Json) : Option TrustedType :=
  match tag with
  | "policy-name" => (value.bind Json.string?).map .policyName
  | "keyword" => (value.bind Json.string?).map .keyword
  | "wildcard" =>
    match value with
    | none | some .null => some .wildcard
    | some _ => none
  | _ => none

/-- Read the JSON form of a trusted-types entry.  Only in an array can its kind be a number, and
only there the text of a wildcard has to be written. -/
def ofJson? : Json → Option TrustedType
  | .object fields => do
    let json := Json.object fields
    ofValue? (← json.required? "kind" Json.innerName?) (json.field? "value")
  | .array [kind, value] => do
    ofValue? (← kind.innerTag? tags) (some value)
  | _ => none

end TrustedType

/-- Read the name of a choice, which is always part of the value of a directive. -/
def Webrtc.ofJson? (json : Json) : Option Webrtc :=
  json.innerName?.bind ofName?

namespace Directive

/-- Read the name of a kind of source list that stands on its own. -/
def ListKind.ofJson? (json : Json) : Option ListKind :=
  json.name?.bind ofName?

/-- Read the name of a kind of source list inside the value of a directive. -/
def ListKind.ofInnerJson? (json : Json) : Option ListKind :=
  json.innerName?.bind ofName?

namespace Body

/-- The name of a type of value. -/
def typeName : Body → String
  | .sourceList .. => "source-list"
  | .sandbox _ => "sandbox"
  | .reportUri _ => "report-uri"
  | .reportTo _ => "report-to"
  | .requireSriFor _ => "require-sri-for"
  | .trustedTypes _ => "trusted-types"
  | .requireTrustedTypesFor _ => "require-trusted-types-for"
  | .webrtc _ => "webrtc"
  | .upgradeInsecureRequests => "upgrade-insecure-requests"
  | .blockAllMixedContent => "block-all-mixed-content"
  | .other => "other"

/-- The fields of a value beside its type. -/
def fields : Body → List (String × Json)
  | .sourceList kind sources =>
    [("kind", .string kind.name), ("sources", .array (sources.map Source.toJson))]
  | .sandbox tokens => [("tokens", .ofTexts tokens)]
  | .reportUri uris => [("uris", .ofTexts uris)]
  | .reportTo group => [("group", .string group)]
  | .requireSriFor resources => [("resources", .ofTexts resources)]
  | .trustedTypes expressions => [("expressions", .array (expressions.map TrustedType.toJson))]
  | .requireTrustedTypesFor sinkGroups => [("sink_groups", .ofTexts sinkGroups)]
  | .webrtc value => [("value", .string value.name)]
  | .upgradeInsecureRequests | .blockAllMixedContent | .other => []

/-- The JSON form of a value. -/
def toJson (body : Body) : Json :=
  .object (("type", .string body.typeName) :: body.fields)

/-- Read the fields of a value of this type. -/
def ofFields? (type : String) (json : Json) : Option Body :=
  match type with
  | "source-list" => do
    let json ← json.record? ["kind", "sources"]
    return .sourceList (← json.required? "kind" ListKind.ofInnerJson?)
      (← json.required? "sources" (Json.list? Source.ofInnerJson?))
  | "sandbox" => do
    let json ← json.record? ["tokens"]
    return .sandbox (← json.required? "tokens" Json.texts?)
  | "report-uri" => do
    let json ← json.record? ["uris"]
    return .reportUri (← json.required? "uris" Json.texts?)
  | "report-to" => do
    let json ← json.record? ["group"]
    return .reportTo (← json.required? "group" Json.string?)
  | "require-sri-for" => do
    let json ← json.record? ["resources"]
    return .requireSriFor (← json.required? "resources" Json.texts?)
  | "trusted-types" => do
    let json ← json.record? ["expressions"]
    return .trustedTypes (← json.required? "expressions" (Json.list? TrustedType.ofJson?))
  | "require-trusted-types-for" => do
    let json ← json.record? ["sink_groups"]
    return .requireTrustedTypesFor (← json.required? "sink_groups" Json.texts?)
  | "webrtc" => do
    let json ← json.record? ["value"]
    return .webrtc (← json.required? "value" Webrtc.ofJson?)
  | "upgrade-insecure-requests" => do
    let _ ← json.record? []
    return .upgradeInsecureRequests
  | "block-all-mixed-content" => do
    let _ ← json.record? []
    return .blockAllMixedContent
  | "other" => do
    let _ ← json.record? []
    return .other
  | _ => none

/-- Read the JSON form of a value. -/
def ofJson? (json : Json) : Option Body := do
  let (tag, fields) ← json.tagged? "type"
  ofFields? (← tag.string?) fields

end Body

/-- The JSON form of a directive. -/
def toJson (directive : Directive) : Json :=
  .object [("name", .string directive.name), ("raw_name", .string directive.rawName),
    ("raw_value", .string directive.rawValue), ("body", directive.body.toJson)]

/-- Read the JSON form of a directive. -/
def ofJson? (json : Json) : Option Directive := do
  let json ← json.record? ["name", "raw_name", "raw_value", "body"]
  return {
    name := ← json.required? "name" Json.string?
    rawName := ← json.required? "raw_name" Json.string?
    rawValue := ← json.required? "raw_value" Json.string?
    body := ← json.required? "body" Body.ofJson? }

end Directive

end ContentSecurity

import ContentSecurity.Directive.Json
import ContentSecurity.Limits
import ContentSecurity.Policy
/-!
# The JSON form of policies and limits

A policy is a record of its three sequences and the header it was read from, which may be `null`,
and which an object may leave out.  Limits are a record that may lack any of its fields; a limit
that is missing has its usual value.
-/

namespace ContentSecurity

namespace Policy

/-- The JSON form of a policy. -/
def toJson (policy : Policy) : Json :=
  .object [
    ("directives", .array (policy.directives.map Directive.toJson)),
    ("other_directives", .array (policy.otherDirectives.map Directive.toJson)),
    ("ineffective_directives", .array (policy.ineffectiveDirectives.map Directive.toJson)),
    ("raw", .ofText? policy.raw)]

/-- Read the JSON form of a policy. -/
def ofJson? (json : Json) : Option Policy := do
  let json ← json.record? ["directives", "other_directives", "ineffective_directives", "raw"]
  return {
    directives := ← json.required? "directives" (Json.list? Directive.ofJson?)
    otherDirectives := ← json.required? "other_directives" (Json.list? Directive.ofJson?)
    ineffectiveDirectives :=
      ← json.required? "ineffective_directives" (Json.list? Directive.ofJson?)
    raw := ← json.optionalText? "raw" }

end Policy

namespace Limits

/-- The JSON form of limits. -/
def toJson (limits : Limits) : Json :=
  .object [("max_header_length", .ofNat limits.headerLength),
    ("max_directives", .ofNat limits.directives),
    ("max_sources_per_directive", .ofNat limits.sources)]

/-- A limit in the field `name`, or the usual one. -/
def limitOfJson? (json : Json) (name : String) (usual : Nat) : Option Nat :=
  match json.field? name with
  | none => some usual
  | some value => value.nat?.bind fun limit => if limit ≤ greatest then some limit else none

/-- Read the JSON form of limits. -/
def ofJson? (json : Json) : Option Limits := do
  let json ← json.initialRecord?
    ["max_header_length", "max_directives", "max_sources_per_directive"]
  let usual : Limits := {}
  return {
    headerLength := ← limitOfJson? json "max_header_length" usual.headerLength
    directives := ← limitOfJson? json "max_directives" usual.directives
    sources := ← limitOfJson? json "max_sources_per_directive" usual.sources }

end Limits

end ContentSecurity

import ContentSecurity.Json
import ContentSecurity.Source
/-!
# The JSON form of sources

A variant, tagged by `kind`.  The parts of a host that may be missing may be `null`, and an object
may leave them out.  The tag of a source inside the value of a directive may also be the place of
its kind among all kinds.
-/

namespace ContentSecurity

/-- Read the name of an algorithm, which is always part of a source. -/
def HashAlgorithm.ofJson? (json : Json) : Option HashAlgorithm :=
  json.innerName?.bind ofName?

namespace Source

/-- The JSON form of a source. -/
def toJson : Source → Json
  | .none => .object [("kind", .string "none")]
  | .written raw (.scheme name) =>
    .object [("kind", .string "scheme"), ("raw", .string raw), ("scheme", .string name)]
  | .written raw (.host parts) =>
    .object [("kind", .string "host"), ("raw", .string raw), ("scheme", .ofText? parts.scheme),
      ("host", .string parts.name), ("port", .ofText? parts.port), ("path", .ofText? parts.path)]
  | .written raw (.keyword word) =>
    .object [("kind", .string "keyword"), ("raw", .string raw), ("keyword", .string word)]
  | .written raw (.nonce value) =>
    .object [("kind", .string "nonce"), ("raw", .string raw), ("nonce", .string value)]
  | .written raw (.hash algorithm digest) =>
    .object [("kind", .string "hash"), ("raw", .string raw),
      ("algorithm", .string algorithm.name), ("digest", .string digest)]

/-- The tags of all kinds of source, in the order by which they may be numbered. -/
def tags : List String :=
  ["none", "scheme", "host", "keyword", "nonce", "hash"]

/-- Read the fields of a source with this tag. -/
def ofFields? (tag : String) (json : Json) : Option Source :=
  match tag with
  | "none" => do
    let _ ← json.record? []
    return .none
  | "scheme" => do
    let json ← json.record? ["raw", "scheme"]
    return .written (← json.required? "raw" Json.string?)
      (.scheme (← json.required? "scheme" Json.string?))
  | "host" => do
    let json ← json.record? ["raw", "scheme", "host", "port", "path"]
    return .written (← json.required? "raw" Json.string?) (.host {
      scheme := ← json.optionalText? "scheme"
      name := ← json.required? "host" Json.string?
      port := ← json.optionalText? "port"
      path := ← json.optionalText? "path" })
  | "keyword" => do
    let json ← json.record? ["raw", "keyword"]
    return .written (← json.required? "raw" Json.string?)
      (.keyword (← json.required? "keyword" Json.string?))
  | "nonce" => do
    let json ← json.record? ["raw", "nonce"]
    return .written (← json.required? "raw" Json.string?)
      (.nonce (← json.required? "nonce" Json.string?))
  | "hash" => do
    let json ← json.record? ["raw", "algorithm", "digest"]
    return .written (← json.required? "raw" Json.string?)
      (.hash (← json.required? "algorithm" HashAlgorithm.ofJson?)
        (← json.required? "digest" Json.string?))
  | _ => Option.none

/-- Read the JSON form of a source that stands on its own. -/
def ofJson? (json : Json) : Option Source := do
  let (tag, fields) ← json.tagged? "kind"
  ofFields? (← tag.string?) fields

/-- Read the JSON form of a source inside the value of a directive. -/
def ofInnerJson? (json : Json) : Option Source := do
  let (tag, fields) ← json.tagged? "kind"
  ofFields? (← tag.innerTag? tags) fields

end Source

end ContentSecurity

import ContentSecurity.Directive.Reading
import ContentSecurity.Policy
import ContentSecurity.Text.Utf8
/-!
# Reading policies

A header is refused for its length, for bytes that are not UTF-8, for its outer form or for the
number of its directives before any directive is looked at.  Then the directives are read in order,
those without effect as well, and the first error ends the reading.
-/

namespace ContentSecurity.Policy

open Grammar

/-- What happens when a directive of a header is put in its place. -/
def placementEvents (directive : Directive) : Placement → List Event
  | .recognized => []
  | .unrecognized => [.unrecognized directive.rawName]
  | .ineffective => [.duplicate directive.rawName]

/-- Read directives that follow others with the names `seen`. -/
def readDirectives (limits : Limits) (header : String) (seen : List String) :
    List Tree → Reading (List Directive)
  | [] => return []
  | tree :: rest => do
    let directive ← Directive.ofTree limits header tree
    .emitAll (placementEvents directive (directive.placement seen))
    (directive :: ·) <$> readDirectives limits header (directive.name :: seen) rest

/-- The text of a header, and the trees of its directives. -/
def outline (limits : Limits) (data : ByteArray) : Except Error (String × List Tree) := do
  limits.check .headerLength data.size
  match String.fromUTF8? data with
  | none =>
    .error (.mismatch Rule.serializedPolicy.name none (Text.repaired data) (Text.validLength data))
  | some header =>
    let tree ← Rule.serializedPolicy.tree header
    let directives := tree.search [.serializedDirective] 2
    limits.check .directiveCount directives.length
    return (header, directives)

/-- Read the policy of a header. -/
def parse (limits : Limits) (data : ByteArray) : Reading Policy := do
  let (header, trees) ← .ofExcept (outline limits data)
  let directives ← readDirectives limits header [] trees
  return { ofDirectives directives with raw := some header }

end ContentSecurity.Policy

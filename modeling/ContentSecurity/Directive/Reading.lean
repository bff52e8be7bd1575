import ContentSecurity.Directive
import ContentSecurity.Limits
import ContentSecurity.Reading
import ContentSecurity.Source.Interpretation
import ContentSecurity.Grammar.Recognition
/-!
# Reading directives

The tree of a directive holds the texts of its name and its value.  The name, in small letters,
decides how the value is read; the value of an unknown name is not looked at.
-/

namespace ContentSecurity.Directive

open Grammar

namespace Body

/-- The texts of the `leaf` nodes of a value that the rule `root` matches. -/
def leaves (root leaf : Rule) (value : String) : Except Error (List String) := do
  let tree ← root.tree value
  return (tree.search [leaf] 2).map (·.text value)

/-- The sources of a value.  The word `'none'` stands alone and in small letters; an empty value
is an empty list.  Neither counts against the limit. -/
def sourcesOf (limits : Limits) (kind : ListKind) (value : String) : Reading (List Source) :=
  if value = Source.noneText then
    return [.none]
  else if value.isEmpty then
    return []
  else do
    let list : Rule :=
      match kind with
      | .frameAncestors => .ancestorSourceListRoot
      | _ => .serializedSourceList
    let tree ← .ofExcept (list.tree value)
    let sources ← Source.interpret value list tree
    if sources.isEmpty then
      .ofExcept (.error (list.mismatch value 0))
    else
      .ofExcept (limits.check .sourceCount sources.length)
      return sources

/-- The meaning of the tree of one trusted-types entry. -/
def trustedTypeOf (value : String) (entry : Tree) : Reading TrustedType :=
  match entry.children with
  | [tree] =>
    match tree.rule with
    | .ttPolicyName => return .policyName (tree.text value)
    | .ttKeyword => return .keyword (Text.unquoted (tree.text value)).toLower
    | .ttWildcard => return .wildcard
    | rule => .report (.foreignExpression rule)
  | children => .report (.wrongCount .ttExpression children.length 1)

/-- The entries of a trusted-types value. -/
def trustedTypesOf (value : String) : Reading (List TrustedType) := do
  let tree ← .ofExcept (Rule.trustedTypesRoot.tree value)
  (tree.search [.ttExpression] 2).mapM (trustedTypeOf value)

/-- Say so if a directive without a value has one. -/
def ignore (kind : Kind) (value : String) : Reading Unit :=
  if value.isEmpty then pure () else .emit (.ignoredValue value kind.name)

/-- Read the value of a directive of a kind. -/
def ofText (limits : Limits) (kind : Kind) (value : String) : Reading Body :=
  match kind with
  | .sourceList list => return .sourceList list (← sourcesOf limits list value)
  | .sandbox => return .sandbox (← .ofExcept (leaves .sandboxRoot .token value))
  | .reportUri => return .reportUri (← .ofExcept (leaves .reportUriRoot .uriReference value))
  | .reportTo => return .reportTo value
  | .requireSriFor => return .requireSriFor ((Text.fields (· == ' ') value).map String.toLower)
  | .trustedTypes => return .trustedTypes (← trustedTypesOf value)
  | .requireTrustedTypesFor => do
    let groups ← .ofExcept
      (leaves .requireTrustedTypesForRoot .trustedTypesSinkGroup value)
    return .requireTrustedTypesFor (groups.map fun group => (Text.unquoted group).toLower)
  | .webrtc =>
    match Webrtc.ofName? value with
    | some value => return .webrtc value
    | none => .ofExcept (.error (.mismatch Kind.webrtc.name none value 0))
  | .upgradeInsecureRequests => do
    ignore kind value
    return .upgradeInsecureRequests
  | .blockAllMixedContent => do
    ignore kind value
    return .blockAllMixedContent

end Body

/-- Read a directive whose name and value are written so. -/
def ofText (limits : Limits) (rawName rawValue : String) : Reading Directive := do
  let name := rawName.toLower
  .emit (.dispatching name rawValue)
  let body ←
    match Kind.ofName? name with
    | some kind => (Body.ofText limits kind rawValue).mapError (.inDirective name)
    | none => pure .other
  return { name, rawName, rawValue, body }

/-- Read the directive of a tree in a header. -/
def ofTree (limits : Limits) (header : String) (tree : Tree) : Reading Directive :=
  match tree.part? header .directiveName with
  | some rawName => ofText limits rawName ((tree.part? header .directiveValue).getD "")
  | none => .report (.namelessDirective tree.start tree.stop)

end ContentSecurity.Directive

/-!
# Rules

The names of the rules of the header grammar.  `Rule.all` lists them in the order of their names;
`endOfInput` is the built-in rule that matches nothing at the end of the text, and is no member
of the list.
-/

namespace ContentSecurity.Grammar

/-- A rule of the header grammar. -/
inductive Rule where
  | ows
  | rws
  | wsp
  | ancestorKeywordSource
  | ancestorSource
  | ancestorSourceListRoot
  | base64Value
  | directiveName
  | directiveValue
  | hashAlgorithm
  | hashSource
  | hostChar
  | hostLabels
  | hostPart
  | hostSource
  | keywordSource
  | nonceSource
  | pathChar
  | pathPart
  | pctEncoded
  | portPart
  | reportUriRoot
  | requireTrustedTypesForRoot
  | sandboxRoot
  | schemePart
  | schemeSource
  | serializedDirective
  | serializedPolicy
  | serializedSourceList
  | sourceEnd
  | sourceExpression
  | tchar
  | token
  | trustedTypesRoot
  | trustedTypesSinkGroup
  | ttExpression
  | ttKeyword
  | ttPolicyName
  | ttWildcard
  | uriChar
  | uriReference
  | valueChar
  | endOfInput
  deriving DecidableEq, Repr

namespace Rule

/-- The name under which a rule is written. -/
def name : Rule → String
  | .ows => "OWS"
  | .rws => "RWS"
  | .wsp => "WSP"
  | .ancestorKeywordSource => "ancestor-keyword-source"
  | .ancestorSource => "ancestor-source"
  | .ancestorSourceListRoot => "ancestor-source-list-root"
  | .base64Value => "base64-value"
  | .directiveName => "directive-name"
  | .directiveValue => "directive-value"
  | .hashAlgorithm => "hash-algorithm"
  | .hashSource => "hash-source"
  | .hostChar => "host-char"
  | .hostLabels => "host-labels"
  | .hostPart => "host-part"
  | .hostSource => "host-source"
  | .keywordSource => "keyword-source"
  | .nonceSource => "nonce-source"
  | .pathChar => "path-char"
  | .pathPart => "path-part"
  | .pctEncoded => "pct-encoded"
  | .portPart => "port-part"
  | .reportUriRoot => "report-uri-root"
  | .requireTrustedTypesForRoot => "require-trusted-types-for-root"
  | .sandboxRoot => "sandbox-root"
  | .schemePart => "scheme-part"
  | .schemeSource => "scheme-source"
  | .serializedDirective => "serialized-directive"
  | .serializedPolicy => "serialized-policy"
  | .serializedSourceList => "serialized-source-list"
  | .sourceEnd => "source-end"
  | .sourceExpression => "source-expression"
  | .tchar => "tchar"
  | .token => "token"
  | .trustedTypesRoot => "trusted-types-root"
  | .trustedTypesSinkGroup => "trusted-types-sink-group"
  | .ttExpression => "tt-expression"
  | .ttKeyword => "tt-keyword"
  | .ttPolicyName => "tt-policy-name"
  | .ttWildcard => "tt-wildcard"
  | .uriChar => "uri-char"
  | .uriReference => "uri-reference"
  | .valueChar => "value-char"
  | .endOfInput => "EOI"

/-- Every rule of the grammar, in the order of their names. -/
def all : List Rule :=
  [.ows, .rws, .wsp, .ancestorKeywordSource, .ancestorSource, .ancestorSourceListRoot,
    .base64Value, .directiveName, .directiveValue, .hashAlgorithm, .hashSource, .hostChar,
    .hostLabels, .hostPart, .hostSource, .keywordSource, .nonceSource, .pathChar, .pathPart,
    .pctEncoded, .portPart, .reportUriRoot, .requireTrustedTypesForRoot, .sandboxRoot,
    .schemePart, .schemeSource, .serializedDirective, .serializedPolicy, .serializedSourceList,
    .sourceEnd, .sourceExpression, .tchar, .token, .trustedTypesRoot, .trustedTypesSinkGroup,
    .ttExpression, .ttKeyword, .ttPolicyName, .ttWildcard, .uriChar, .uriReference, .valueChar]

/-- The rule of a given name, the built-in one included. -/
def ofName? (name : String) : Option Rule :=
  (endOfInput :: all).find? (·.name == name)

end Rule

end ContentSecurity.Grammar

import ContentSecurity.Grammar.Lexicon
import ContentSecurity.Grammar.Phrase
/-!
# The rules of the header grammar

The whole policy is read by `serialized-policy`; the values of some directives then have a root
rule of their own.  The word `'none'` of a source list belongs to neither list grammar.

A source ends before a blank or at the end of the text.  Only this look ahead tells the scheme
`https:` from the host `https://example.com`, since the scheme is tried first.
-/

namespace ContentSecurity.Grammar

namespace Phrase

/-! ### The policy -/

def serializedDirective : Phrase :=
  .node .serializedDirective <|
    .seq (.token .directiveName .directiveName)
      (opt (.seq (.text .gap) (.token .directiveValue .directiveValue)))

def serializedPolicy : Phrase :=
  .node .serializedPolicy <|
    all [.text .blanks, serializedDirective,
      .star (all [.text .blanks, .text (.literal ";"),
        opt (.seq (.text .blanks) serializedDirective)]),
      .text .blanks, .finish]

/-! ### Sources -/

/-- Nothing, before a blank or at the end of the text. -/
def sourceEnd : Phrase :=
  .ahead (.alt (.text .blank) .finish)

def schemePart : Phrase :=
  .token .schemePart .schemePart

def schemeSource : Phrase :=
  .node .schemeSource (all [schemePart, .text (.literal ":"), sourceEnd])

def hostSource : Phrase :=
  .node .hostSource <|
    all [opt (.seq schemePart (.text (.literal "://"))),
      .token .hostPart .hostPart,
      opt (.seq (.text (.literal ":")) (.token .portPart .portPart)),
      opt (.token .pathPart .pathPart),
      sourceEnd]

def base64Value : Phrase :=
  .token .base64Value .base64Value

def nonceSource : Phrase :=
  .node .nonceSource <|
    all [.text (.literal "'"), .text (.word "nonce-"), base64Value, .text (.literal "'")]

def hashSource : Phrase :=
  .node .hashSource <|
    all [.text (.literal "'"), .token .hashAlgorithm .hashAlgorithm, .text (.literal "-"),
      base64Value, .text (.literal "'")]

def keywordSource : Phrase :=
  .token .keywordSource .keywordSource

def ancestorKeywordSource : Phrase :=
  .token .ancestorKeywordSource .ancestorKeywordSource

def sourceExpression : Phrase :=
  .node .sourceExpression <|
    oneOf [schemeSource, hostSource, keywordSource, nonceSource, hashSource]

def ancestorSource : Phrase :=
  .node .ancestorSource <|
    oneOf [schemeSource, hostSource, ancestorKeywordSource]

/-! ### Values with a rule of their own -/

/-- A whole text of one or more items with blanks between them. -/
def list (root : Rule) (item : Phrase) : Phrase :=
  .node root (.seq (separated item .gap) .finish)

/-- A whole text of any number of items with blanks between them. -/
def listOrNothing (root : Rule) (item : Phrase) : Phrase :=
  .node root (.seq (opt (separated item .gap)) .finish)

def serializedSourceList : Phrase :=
  list .serializedSourceList sourceExpression

def ancestorSourceListRoot : Phrase :=
  list .ancestorSourceListRoot ancestorSource

def sandboxToken : Phrase :=
  .token .token .sandboxToken

def sandboxRoot : Phrase :=
  listOrNothing .sandboxRoot sandboxToken

def uriReference : Phrase :=
  .token .uriReference .uriReference

def reportUriRoot : Phrase :=
  list .reportUriRoot uriReference

def ttKeyword : Phrase :=
  .token .ttKeyword .trustedTypesKeyword

def ttWildcard : Phrase :=
  .token .ttWildcard (.literal "*")

def ttPolicyName : Phrase :=
  .token .ttPolicyName .trustedTypesPolicyName

def ttExpression : Phrase :=
  .node .ttExpression (oneOf [ttKeyword, ttWildcard, ttPolicyName])

def trustedTypesRoot : Phrase :=
  listOrNothing .trustedTypesRoot ttExpression

def trustedTypesSinkGroup : Phrase :=
  .token .trustedTypesSinkGroup .trustedTypesSinkGroup

def requireTrustedTypesForRoot : Phrase :=
  list .requireTrustedTypesForRoot trustedTypesSinkGroup

end Phrase

/-- What the text of a rule looks like. -/
def Rule.phrase : Rule → Phrase
  | .ows => .text .blanks
  | .rws => .text .gap
  | .wsp => .text .blank
  | .ancestorKeywordSource => .ancestorKeywordSource
  | .ancestorSource => .ancestorSource
  | .ancestorSourceListRoot => .ancestorSourceListRoot
  | .base64Value => .base64Value
  | .directiveName => .token .directiveName .directiveName
  | .directiveValue => .token .directiveValue .directiveValue
  | .hashAlgorithm => .token .hashAlgorithm .hashAlgorithm
  | .hashSource => .hashSource
  | .hostChar => .text (.one isNameChar)
  | .hostLabels => .text .hostLabels
  | .hostPart => .token .hostPart .hostPart
  | .hostSource => .hostSource
  | .keywordSource => .keywordSource
  | .nonceSource => .nonceSource
  | .pathChar => .text .pathChar
  | .pathPart => .token .pathPart .pathPart
  | .pctEncoded => .text .pctEncoded
  | .portPart => .token .portPart .portPart
  | .reportUriRoot => .reportUriRoot
  | .requireTrustedTypesForRoot => .requireTrustedTypesForRoot
  | .sandboxRoot => .sandboxRoot
  | .schemePart => .schemePart
  | .schemeSource => .schemeSource
  | .serializedDirective => .serializedDirective
  | .serializedPolicy => .serializedPolicy
  | .serializedSourceList => .serializedSourceList
  | .sourceEnd => .sourceEnd
  | .sourceExpression => .sourceExpression
  | .tchar => .text (.one isTokenChar)
  | .token => .sandboxToken
  | .trustedTypesRoot => .trustedTypesRoot
  | .trustedTypesSinkGroup => .trustedTypesSinkGroup
  | .ttExpression => .ttExpression
  | .ttKeyword => .ttKeyword
  | .ttPolicyName => .ttPolicyName
  | .ttWildcard => .ttWildcard
  | .uriChar => .text .uriChar
  | .uriReference => .uriReference
  | .valueChar => .text (.one isValueChar)
  | .endOfInput => .finish

end ContentSecurity.Grammar

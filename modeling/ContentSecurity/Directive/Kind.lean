import ContentSecurity.Text.Words
/-!
# Kinds of directives

The directives whose values this library understands.  The value of most is a source list; the
others have a grammar of their own, or no value.  Names are compared letter by letter, so a name
has to be in small letters to be found.
-/

namespace ContentSecurity.Directive

/-- A directive whose value is a source list. -/
inductive ListKind where
  | baseUri
  | childSrc
  | connectSrc
  | defaultSrc
  | fontSrc
  | formAction
  | frameAncestors
  | frameSrc
  | imgSrc
  | manifestSrc
  | mediaSrc
  | objectSrc
  | scriptSrc
  | scriptSrcAttr
  | scriptSrcElem
  | styleSrc
  | styleSrcAttr
  | styleSrcElem
  | workerSrc
  deriving DecidableEq, Repr

/-- A name as a single word: its parts capitalised, without the hyphens between them. -/
def joinedName (name : String) : String :=
  String.join ((Text.fields (· == '-') name).map String.capitalize)

namespace ListKind

def name : ListKind → String
  | .baseUri => "base-uri"
  | .childSrc => "child-src"
  | .connectSrc => "connect-src"
  | .defaultSrc => "default-src"
  | .fontSrc => "font-src"
  | .formAction => "form-action"
  | .frameAncestors => "frame-ancestors"
  | .frameSrc => "frame-src"
  | .imgSrc => "img-src"
  | .manifestSrc => "manifest-src"
  | .mediaSrc => "media-src"
  | .objectSrc => "object-src"
  | .scriptSrc => "script-src"
  | .scriptSrcAttr => "script-src-attr"
  | .scriptSrcElem => "script-src-elem"
  | .styleSrc => "style-src"
  | .styleSrcAttr => "style-src-attr"
  | .styleSrcElem => "style-src-elem"
  | .workerSrc => "worker-src"

/-- All kinds, in the order of their names. -/
def all : List ListKind :=
  [.baseUri, .childSrc, .connectSrc, .defaultSrc, .fontSrc, .formAction, .frameAncestors,
    .frameSrc, .imgSrc, .manifestSrc, .mediaSrc, .objectSrc, .scriptSrc, .scriptSrcAttr,
    .scriptSrcElem, .styleSrc, .styleSrcAttr, .styleSrcElem, .workerSrc]

/-- The kind of a given name. -/
def ofName? (name : String) : Option ListKind :=
  all.find? (·.name == name)

/-- The kind as a single word. -/
def label (kind : ListKind) : String :=
  joinedName kind.name

end ListKind

/-- A directive whose value is understood. -/
inductive Kind where
  | sourceList (kind : ListKind)
  | sandbox
  | reportUri
  | reportTo
  | requireSriFor
  | trustedTypes
  | requireTrustedTypesFor
  | webrtc
  | upgradeInsecureRequests
  | blockAllMixedContent
  deriving DecidableEq, Repr

namespace Kind

def name : Kind → String
  | .sourceList kind => kind.name
  | .sandbox => "sandbox"
  | .reportUri => "report-uri"
  | .reportTo => "report-to"
  | .requireSriFor => "require-sri-for"
  | .trustedTypes => "trusted-types"
  | .requireTrustedTypesFor => "require-trusted-types-for"
  | .webrtc => "webrtc"
  | .upgradeInsecureRequests => "upgrade-insecure-requests"
  | .blockAllMixedContent => "block-all-mixed-content"

/-- All kinds. -/
def all : List Kind :=
  [.sandbox, .reportUri, .reportTo, .requireSriFor, .trustedTypes, .requireTrustedTypesFor,
    .webrtc, .upgradeInsecureRequests, .blockAllMixedContent] ++ ListKind.all.map .sourceList

/-- The kind of a given name. -/
def ofName? (name : String) : Option Kind :=
  all.find? (·.name == name)

/-- The kind as a single word, with the kind of list in brackets. -/
def label : Kind → String
  | .sourceList kind => "SourceList(" ++ kind.label ++ ")"
  | kind => joinedName kind.name

end Kind

end ContentSecurity.Directive

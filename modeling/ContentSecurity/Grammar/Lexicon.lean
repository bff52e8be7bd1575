import ContentSecurity.Grammar.Lexeme
/-!
# The lexicon of the header grammar

Character classes and token texts.  Every class is a set of ASCII characters; quoted words are
read in any letter case.
-/

namespace ContentSecurity.Grammar

/-! ### Characters -/

/-- A space or a tab. -/
def isBlank (c : Char) : Bool :=
  c == ' ' || c == '\t'

def isHexDigit (c : Char) : Bool :=
  c.isDigit || ('a' ≤ c && c ≤ 'f') || ('A' ≤ c && c ≤ 'F')

/-- A letter, a digit or a hyphen. -/
def isNameChar (c : Char) : Bool :=
  c.isAlphanum || c == '-'

/-- A visible character other than a comma and a semicolon. -/
def isValueChar (c : Char) : Bool :=
  '!' ≤ c && c ≤ '~' && c != ',' && c != ';'

def isSchemeChar (c : Char) : Bool :=
  c.isAlphanum || "+-.".toList.contains c

def isPathChar (c : Char) : Bool :=
  c.isAlphanum || "-._~!$&'()*+=:@/".toList.contains c

def isBase64Char (c : Char) : Bool :=
  c.isAlphanum || "+/-_".toList.contains c

def isTokenChar (c : Char) : Bool :=
  c.isAlphanum || "!#$%&'*+-.^_`|~".toList.contains c

def isUriChar (c : Char) : Bool :=
  c.isAlphanum || "-._~:/?#[]@!$&'()*+=".toList.contains c

/-- A character of the name of a trusted-types policy. -/
def isPolicyNameChar (c : Char) : Bool :=
  c.isAlphanum || "-#=_/@.%".toList.contains c

/-! ### Keywords -/

/-- The keywords that a source list may hold, without their quotes. -/
def sourceKeywords : List String :=
  ["self", "unsafe-inline", "unsafe-eval", "strict-dynamic", "unsafe-hashes", "report-sample",
    "unsafe-allow-redirects", "wasm-unsafe-eval", "inline-speculation-rules"]

/-- The keywords that a list of ancestors may hold, without their quotes. -/
def ancestorKeywords : List String :=
  ["self"]

/-- The keywords of trusted types, without their quotes. -/
def trustedTypesKeywords : List String :=
  ["allow-duplicates", "none"]

/-- The sink groups for which trusted types can be required, without their quotes. -/
def sinkGroups : List String :=
  ["script"]

namespace Lexeme

/-! ### Token texts -/

/-- A word between single quotes. -/
def quotedWord (text : String) : Lexeme :=
  word ("'" ++ text ++ "'")

def blank : Lexeme :=
  one isBlank

/-- Blanks that may be missing. -/
def blanks : Lexeme :=
  star blank

/-- Blanks that separate. -/
def gap : Lexeme :=
  plus blank

def directiveName : Lexeme :=
  plus (one isNameChar)

/-- Runs of visible characters with blanks between them, hence without a blank at either end. -/
def directiveValue : Lexeme :=
  seq (plus (one isValueChar)) (star (seq gap (plus (one isValueChar))))

def schemePart : Lexeme :=
  seq (one Char.isAlpha) (star (one isSchemeChar))

/-- Labels with single dots between them and possibly one behind. -/
def hostLabels : Lexeme :=
  seq (plus (one isNameChar))
    (seq (star (seq (literal ".") (plus (one isNameChar)))) (opt (literal ".")))

def hostPart : Lexeme :=
  oneOf [seq (literal "*.") hostLabels, literal "*", hostLabels]

def portPart : Lexeme :=
  alt (plus (one Char.isDigit)) (literal "*")

/-- A percent sign and two hexadecimal digits. -/
def pctEncoded : Lexeme :=
  seq (literal "%") (seq (one isHexDigit) (one isHexDigit))

def pathChar : Lexeme :=
  alt (one isPathChar) pctEncoded

def pathPart : Lexeme :=
  seq (literal "/") (star pathChar)

def keywordSource : Lexeme :=
  oneOf (sourceKeywords.map quotedWord)

def ancestorKeywordSource : Lexeme :=
  oneOf (ancestorKeywords.map quotedWord)

def hashAlgorithm : Lexeme :=
  oneOf (["sha256", "sha384", "sha512"].map word)

/-- Characters of either alphabet with at most two signs of padding behind. -/
def base64Value : Lexeme :=
  seq (plus (one isBase64Char)) (opt (seq (literal "=") (opt (literal "="))))

/-- A token as HTTP has them. -/
def sandboxToken : Lexeme :=
  plus (one isTokenChar)

def uriChar : Lexeme :=
  alt (one isUriChar) pctEncoded

def uriReference : Lexeme :=
  plus uriChar

def trustedTypesKeyword : Lexeme :=
  oneOf (trustedTypesKeywords.map quotedWord)

def trustedTypesPolicyName : Lexeme :=
  plus (one isPolicyNameChar)

def trustedTypesSinkGroup : Lexeme :=
  oneOf (sinkGroups.map quotedWord)

end Lexeme

end ContentSecurity.Grammar

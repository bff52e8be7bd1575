import ContentSecurity.Text.Words
/-!
# Sources

A source is one entry of a source list.  Apart from `'none'` it has a meaning, its `Expression`,
and the text that it was written as.  Two sources are equivalent (`≈`) when they mean the same,
however they were written; `Source.plain` writes a source in the canonical way, so that equivalent
sources have one plain form.
-/

namespace ContentSecurity

/-- A hash function for which a digest can be given. -/
inductive HashAlgorithm where
  | sha256
  | sha384
  | sha512
  deriving DecidableEq, Repr

namespace HashAlgorithm

def name : HashAlgorithm → String
  | .sha256 => "sha256"
  | .sha384 => "sha384"
  | .sha512 => "sha512"

def all : List HashAlgorithm :=
  [.sha256, .sha384, .sha512]

/-- The algorithm of exactly this name. -/
def ofName? (name : String) : Option HashAlgorithm :=
  all.find? (·.name == name)

/-- The algorithm of this name in any letter case. -/
def parse? (text : String) : Option HashAlgorithm :=
  ofName? text.toLower

/-- Number of bytes of a digest. -/
def digestLength : HashAlgorithm → Nat
  | .sha256 => 32
  | .sha384 => 48
  | .sha512 => 64

end HashAlgorithm

/-- The parts of a host source. -/
structure Host where
  scheme : Option String := none
  name : String
  /-- Digits, or `*` for any port. -/
  port : Option String := none
  path : Option String := none
  deriving DecidableEq, Repr

namespace Host

/-- A host source in canonical form. -/
def text (host : Host) : String :=
  (match host.scheme with
    | some scheme => scheme ++ "://"
    | none => "") ++
  host.name ++
  (match host.port with
    | some port => ":" ++ port
    | none => "") ++
  host.path.getD ""

/-- A part that a host source may have beside its name. -/
inductive Part where
  | scheme
  | port
  | path
  deriving DecidableEq, Repr

/-- Give a part, in place of the one that is there. -/
def set (host : Host) (part : Part) (value : String) : Host :=
  match part with
  | .scheme => { host with scheme := some value }
  | .port => { host with port := some value }
  | .path => { host with path := some value }

/-- Every port is allowed. -/
def hasAnyPort (host : Host) : Bool :=
  host.port == some "*"

end Host

/-- What a source means. -/
inductive Expression where
  /-- Everything with this scheme. -/
  | scheme (name : String)
  /-- Everything at this host. -/
  | host (parts : Host)
  /-- A keyword, without its quotes and in small letters. -/
  | keyword (word : String)
  /-- What carries this nonce. -/
  | nonce (value : String)
  /-- What has this digest, given in Base64. -/
  | hash (algorithm : HashAlgorithm) (digest : String)
  deriving DecidableEq, Repr

namespace Expression

/-- The canonical form of a source with this meaning. -/
def text : Expression → String
  | .scheme name => name ++ ":"
  | .host parts => parts.text
  | .keyword word => "'" ++ word ++ "'"
  | .nonce value => "'nonce-" ++ value ++ "'"
  | .hash algorithm digest => "'" ++ algorithm.name ++ "-" ++ digest ++ "'"

/-- The keyword that a word stands for, with or without quotes and in any letter case. -/
def ofKeyword (word : String) : Expression :=
  .keyword (Text.unquoted word).toLower

end Expression

/-- One entry of a source list. -/
inductive Source where
  /-- `'none'`, which stands alone in its list. -/
  | none
  /-- A source with the text that it was written as. -/
  | written (raw : String) (expression : Expression)
  deriving DecidableEq, Repr

namespace Source

/-- How the source `'none'` is written. -/
def noneText : String :=
  "'none'"

/-- A source written in canonical form. -/
def ofExpression (expression : Expression) : Source :=
  .written expression.text expression

/-- A host source that has a name only. -/
def ofHost (name : String) : Source :=
  .ofExpression (.host { name })

/-- Give a host source a part, and write it anew.  Another source stays as it is. -/
def withPart (part : Host.Part) (value : String) : Source → Source
  | .written _ (.host parts) => .ofExpression (.host (parts.set part value))
  | source => source

/-- What a source means; nothing for `'none'`. -/
def expression? : Source → Option Expression
  | .none => Option.none
  | .written _ expression => some expression

/-- The text that a source was written as. -/
def raw : Source → String
  | .none => noneText
  | .written raw _ => raw

/-- A source in canonical form. -/
def text : Source → String
  | .none => noneText
  | .written _ expression => expression.text

/-- The same source, written in canonical form. -/
def plain : Source → Source
  | .none => .none
  | .written _ expression => .ofExpression expression

def isNone : Source → Bool
  | .none => true
  | .written .. => false

/-- The source is the keyword `word`, which may be given with quotes and in any letter case. -/
def isKeyword (word : String) : Source → Bool
  | .written _ (.keyword own) => own.toLower == (Text.unquoted word).toLower
  | _ => false

/-- Sources that mean the same. -/
instance : Setoid Source where
  r a b := a.plain = b.plain
  iseqv := ⟨fun _ => rfl, fun h => h.symm, fun h₁ h₂ => h₁.trans h₂⟩

instance (a b : Source) : Decidable (a ≈ b) :=
  inferInstanceAs (Decidable (a.plain = b.plain))

/-- The sources of `current`, and behind them those of `incoming` that mean something new, each
once. -/
def union (current incoming : List Source) : List Source :=
  incoming.foldl (fun known source => if known.any (· ≈ source) then known else known ++ [source])
    current

/-- Merge sources into a list.  Something beside `'none'` displaces it. -/
def merge (current incoming : List Source) : List Source :=
  let kept := if incoming.isEmpty then current else current.filter (!·.isNone)
  union kept incoming

end Source

end ContentSecurity

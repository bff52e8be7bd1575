import ContentSecurity.Base64
import ContentSecurity.Grammar.Recognition
/-!
# Digests

The digest of a hash source is Base64 in either alphabet.  A text that neither alphabet accepts is
refused for the reason that the second one gives.
-/

namespace ContentSecurity.Digest

/-- The bytes of a text in UTF-8. -/
def utf8 (text : String) : List UInt8 :=
  text.toList.flatMap String.utf8EncodeChar

/-- The bytes of a digest.  Their number is not checked. -/
def decode (digest : String) : Except Error (List UInt8) :=
  match Base64.decode .standard (utf8 digest) with
  | .ok bytes => .ok bytes
  | .error _ =>
    (Base64.decode .urlSafe (utf8 digest)).mapError (Grammar.Rule.base64Value.mismatch digest)

end ContentSecurity.Digest

import ContentSecurity.Text.GraphemeExtend
import ContentSecurity.Text.Unprintable
/-!
# Quoted text

A text in a message stands between double quotes, and every character of it can be seen: the
quote and the backslash follow a backslash, four controls have letters of their own, and what has
no visible form or would attach to the character before it is written as its code point.
-/

namespace ContentSecurity.Text

/-- How a character is written between double quotes. -/
def escape (c : Char) : String :=
  if c == '"' then "\\\""
  else if c == '\\' then "\\\\"
  else if c == '\x00' then "\\0"
  else if c == '\t' then "\\t"
  else if c == '\n' then "\\n"
  else if c == '\r' then "\\r"
  else if ' ' ≤ c && c ≤ '~' then c.toString
  else if isGraphemeExtend c || isUnprintable c then
    "\\u\x7b" ++ String.ofList (Nat.toDigits 16 c.toNat) ++ "\x7d"
  else c.toString

/-- A text between double quotes, all of it visible. -/
def quoted (text : String) : String :=
  "\"" ++ String.join (text.toList.map escape) ++ "\""

end ContentSecurity.Text

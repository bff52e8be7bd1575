/-!
# Words and quotes

`fields` cuts a text at separators and keeps what is not empty.  `unquoted` takes away all single
quotes at either end.
-/

namespace ContentSecurity.Text

/-- The longest runs of characters that are no separators, in order. -/
def fields (isSeparator : Char → Bool) (text : String) : List String :=
  ((text.toList.splitOnP isSeparator).filter (!·.isEmpty)).map .ofList

/-- A text without the characters of a class at its two ends. -/
def trimmed (isOuter : Char → Bool) (text : List Char) : List Char :=
  ((text.dropWhile isOuter).reverse.dropWhile isOuter).reverse

/-- A text without the single quotes at its two ends. -/
def unquoted (text : String) : String :=
  .ofList (trimmed (· == '\x27') text.toList)

end ContentSecurity.Text

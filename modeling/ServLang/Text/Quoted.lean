/-
  ServLang.Text.Quoted — one character in single quotes, as messages show it. What a
  reader could not tell from the page is written as an escape: the usual short ones,
  and `\u{…}` with the code point in hexadecimal for everything that is unprintable
  or would be drawn onto the opening quote.
-/

import ServLang.Text.GraphemeExtend
import ServLang.Text.Unprintable

namespace ServLang.Text

def codePointEscape (c : Char) : String :=
  "\\u\x7b" ++ String.ofList (Nat.toDigits 16 c.toNat) ++ "\x7d"

/-- A character as it stands between single quotes. -/
def escaped (c : Char) : String :=
  if c = '\x00' then "\\0"
  else if c = '\t' then "\\t"
  else if c = '\n' then "\\n"
  else if c = '\r' then "\\r"
  else if c = '\x27' then "\\'"
  else if c = '\\' then "\\\\"
  else if extendsGrapheme c || unprintable c then codePointEscape c
  else String.singleton c

def quoted (c : Char) : String := "'" ++ escaped c ++ "'"

end ServLang.Text

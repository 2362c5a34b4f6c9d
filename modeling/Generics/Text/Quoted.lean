/-
Generics.Text.Quoted — text between double quotes, as messages show it.

The quote and the backslash, and the common line controls, are written with a
backslash. A character without a visible form is shown by its number in
hexadecimal digits, in braces.
-/
import Generics.Text.Unprintable

namespace Generics.Text

/-- A character as it stands between the quotes. -/
def quotedChar (c : Char) : String :=
  if c == '"' then "\\\""
  else if c == '\\' then "\\\\"
  else if c == '\t' then "\\t"
  else if c == '\n' then "\\n"
  else if c == '\r' then "\\r"
  else if c == '\x00' then "\\0"
  else if isUnprintable c then "\\u\x7b" ++ String.ofList (Nat.toDigits 16 c.toNat) ++ "\x7d"
  else String.singleton c

/-- The text in quotes. -/
def quoted (text : String) : String :=
  "\"" ++ String.join (text.toList.map quotedChar) ++ "\""

end Generics.Text

/-
Generics.Json.Writer — compact JSON text of a tree.

Nothing is written between words. In strings only what has to be escaped is:
the quote, the backslash and the control characters.
-/
import Generics.Json.Basic

namespace Generics.Json

/-- A hexadecimal digit. -/
def hexDigit (n : Nat) : Char :=
  if n < 10 then Char.ofNat ('0'.toNat + n) else Char.ofNat ('a'.toNat + (n - 10))

/-- A character as it stands in a string. -/
def escapeChar (c : Char) : List Char :=
  if c == '"' then ['\\', '"']
  else if c == '\\' then ['\\', '\\']
  else if c == '\x08' then ['\\', 'b']
  else if c == '\x0c' then ['\\', 'f']
  else if c == '\n' then ['\\', 'n']
  else if c == '\r' then ['\\', 'r']
  else if c == '\t' then ['\\', 't']
  else if c.toNat < 0x20 then
    ['\\', 'u', '0', '0', hexDigit (c.toNat / 16), hexDigit (c.toNat % 16)]
  else [c]

/-- A string in quotes. -/
def writeString (text : String) : List Char :=
  '"' :: (text.toList.flatMap escapeChar ++ ['"'])

mutual

/-- The text of a value. Where a tree breaks off, so does its text. -/
def writeChars : Json → List Char
  | .null => "null".toList
  | .bool value => if value then "true".toList else "false".toList
  | .integer value => (toString value).toList
  | .float value => (Decimal.Layout.standard.float value).toList
  | .string value => writeString value
  | .array items closing =>
    '[' :: (writeItems items ++
      match closing with
      | .closed => [']']
      | _ => [])
  | .object members closing =>
    '\x7b' :: (writeMembers members ++
      match closing with
      | .closed => ['\x7d']
      | _ => [])
  | .broken => []

/-- Items with commas between them. -/
def writeItems : List Json → List Char
  | [] => []
  | [item] => writeChars item
  | item :: rest => writeChars item ++ ',' :: writeItems rest

/-- Members with commas between them. -/
def writeMembers : List (String × Json) → List Char
  | [] => []
  | [(key, value)] => writeString key ++ ':' :: writeChars value
  | (key, value) :: rest => writeString key ++ ':' :: (writeChars value ++ ',' :: writeMembers rest)

end

/-- The text of a value. -/
def write (value : Json) : String :=
  String.ofList (writeChars value)

end Generics.Json

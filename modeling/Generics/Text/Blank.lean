/-
Generics.Text.Blank — which characters count as blank, in two alphabets.

Type expressions are written in ASCII and know the five blanks of that
alphabet. Names that a person types into a setting may be surrounded by any
blank of Unicode, the characters of the property White_Space.
-/
namespace Generics.Text

/-- The blanks of ASCII text: space, tab, line feed, form feed and carriage
return. The vertical tab is not one of them. -/
def isAsciiBlank (c : Char) : Bool :=
  c == ' ' || c == '\t' || c == '\n' || c == '\x0c' || c == '\r'

/-- The ranges of code points with the Unicode property White_Space, in
increasing order. -/
def blankRanges : List (Nat × Nat) :=
  [(0x09, 0x0d), (0x20, 0x20), (0x85, 0x85), (0xa0, 0xa0), (0x1680, 0x1680), (0x2000, 0x200a),
    (0x2028, 0x2029), (0x202f, 0x202f), (0x205f, 0x205f), (0x3000, 0x3000)]

/-- A character with the Unicode property White_Space. -/
def isBlank (c : Char) : Bool :=
  blankRanges.any fun r => r.1 ≤ c.toNat && c.toNat ≤ r.2

/-- The text without the blanks at its two ends. -/
def trimBlanks (text : List Char) : List Char :=
  ((text.dropWhile isBlank).reverse.dropWhile isBlank).reverse

end Generics.Text

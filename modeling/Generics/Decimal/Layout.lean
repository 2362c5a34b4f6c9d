/-
Generics.Decimal.Layout — decimals as text.

Numbers of moderate size are written out, always with a point and a digit after
it. Very large and very small ones have an exponent after one leading digit, and
the exponent always has a sign.
-/
import Generics.Decimal.Shortest

namespace Generics.Decimal

/-- Where exponents begin: a number is written out if the place of its point,
counted from before its first digit, lies between these two. -/
structure Layout where
  leastPoint : Int
  greatestPoint : Int

/-- Numbers from one hundred thousandth up to ten to the sixteenth are written
out. -/
def Layout.standard : Layout where
  leastPoint := -4
  greatestPoint := 16

/-- An exponent of ten with its sign. -/
def exponentText (e : Int) : String :=
  if 0 ≤ e then "e+" ++ toString e.toNat else "e-" ++ toString (-e).toNat

/-- The text of a positive decimal. -/
def Layout.text (l : Layout) (d : Digits) : String :=
  let digits := Nat.toDigits 10 d.digits
  let zeros (n : Int) : List Char := List.replicate n.toNat '0'
  let point := (digits.length : Int) + d.exponent
  String.ofList <|
    if l.leastPoint ≤ point && point ≤ l.greatestPoint then
      if 0 ≤ d.exponent then digits ++ zeros d.exponent ++ ['.', '0']
      else if 0 < point then digits.take point.toNat ++ '.' :: digits.drop point.toNat
      else '0' :: '.' :: (zeros (-point) ++ digits)
    else
      let mantissa :=
        match digits with
        | first :: second :: rest => first :: '.' :: second :: rest
        | _ => digits
      mantissa ++ (exponentText (point - 1)).toList

/-- The text of a finite floating point number, by its shortest decimal. -/
def Layout.float (l : Layout) (x : Float) : String :=
  let bits := x.toBits
  let sign := if 0x8000000000000000 ≤ bits.toNat then "-" else ""
  let b := Binary.ofBits bits
  sign ++ if b.significand = 0 then "0.0" else l.text (shortest b)

end Generics.Decimal

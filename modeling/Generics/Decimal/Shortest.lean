/-
Generics.Decimal.Shortest — the fewest decimal digits that tell a binary
floating point number from its neighbours.

A finite positive number is `m * 2 ^ q`. The reals that are nearer to it than to
any other such number form an interval; the end points belong to it exactly
when `m` is even, since halves are rounded to even. Of the decimals in that
interval the ones with fewest digits are wanted, and of those the nearest. On
the grid of decimals with a given number of digits it is enough to look at the
two neighbours of the number itself: if any point of the grid lies in the
interval, so does one of these two.

All comparisons are between natural numbers, so they are exact.
-/
namespace Generics.Decimal

/-! ## 1. Numbers as fractions -/

/-- A positive binary number `significand * 2 ^ exponent`. `atStep` says that it
is the smallest with its exponent, so that its lower neighbour is only half as
far away as its upper one. -/
structure Binary where
  significand : Nat
  exponent : Int
  atStep : Bool

/-- The leading bit of a significand, which is not stored. -/
def hiddenBit : Nat := 0x10000000000000

/-- A 64 bit floating point number, without its sign. Zero has significand 0;
infinities and NaNs are read like finite numbers. -/
def Binary.ofBits (bits : UInt64) : Binary :=
  let fraction : Nat := bits.toNat % hiddenBit
  let biased : Nat := bits.toNat / hiddenBit % 2048
  if biased = 0 then ⟨fraction, -1074, false⟩
  else ⟨hiddenBit + fraction, (biased : Int) - 1075, fraction = 0 && 1 < biased⟩

/-- A fraction of natural numbers. -/
structure Fraction where
  num : Nat
  den : Nat

/-- `n * base ^ e` as a fraction. -/
def Fraction.scaled (n base : Nat) : Int → Fraction
  | .ofNat e => ⟨n * Nat.pow base e, 1⟩
  | .negSucc e => ⟨n, Nat.pow base (e + 1)⟩

/-- Whether one fraction is below another. -/
def Fraction.lt (a b : Fraction) : Bool :=
  a.num * b.den < b.num * a.den

/-- Whether one fraction is at most another. -/
def Fraction.le (a b : Fraction) : Bool :=
  a.num * b.den ≤ b.num * a.den

/-- The reals that are rounded to a number, with its own place among them. -/
structure Interval where
  low : Fraction
  middle : Fraction
  high : Fraction
  closed : Bool

/-- The interval of a number. A quarter of the gap above the number is the unit,
so that both ends are whole. -/
def Binary.interval (b : Binary) : Interval :=
  let quarters (n : Nat) : Fraction := .scaled n 2 (b.exponent - 2)
  { low := quarters (4 * b.significand - if b.atStep then 1 else 2)
    middle := quarters (4 * b.significand)
    high := quarters (4 * b.significand + 2)
    closed := b.significand % 2 = 0 }

/-- Whether a decimal is rounded to the number. -/
def Interval.contains (i : Interval) (x : Fraction) : Bool :=
  if i.closed then i.low.le x && x.le i.high else i.low.lt x && x.lt i.high

/-! ## 2. Choosing digits -/

/-- A decimal `digits * 10 ^ exponent`. -/
structure Digits where
  digits : Nat
  exponent : Int
  deriving DecidableEq, Repr

/-- The decimal as a fraction. -/
def Digits.value (d : Digits) : Fraction :=
  .scaled d.digits 10 d.exponent

/-- The exponent of the first decimal digit of a positive fraction. -/
def leadingExponent (x : Fraction) : Int :=
  if x.den ≤ x.num then ((Nat.toDigits 10 (x.num / x.den)).length : Int) - 1
  else
    match (List.range 400).find? fun t => x.den ≤ x.num * Nat.pow 10 t with
    | some places => -(places : Int)
    | none => -400

/-- The largest point of the grid with spacing `10 ^ exponent` that is not above
a fraction. -/
def pointBelow (x : Fraction) (exponent : Int) : Digits :=
  let unit := Fraction.scaled 1 10 exponent
  ⟨x.num * unit.den / (x.den * unit.num), exponent⟩

/-- Which of two neighbouring points on a grid is nearer to a fraction between
them. At equal distance the even one is taken. -/
def nearer (x : Fraction) (below above : Digits) : Digits :=
  let twice : Fraction := ⟨2 * x.num, x.den⟩
  let sum : Fraction := .scaled (below.digits + above.digits) 10 below.exponent
  if twice.lt sum then below
  else if sum.lt twice then above
  else if below.digits % 2 = 0 then below
  else above

/-- The decimal on a grid that stands for a number, if there is one. -/
def onGrid? (i : Interval) (exponent : Int) : Option Digits :=
  let below := pointBelow i.middle exponent
  let above : Digits := ⟨below.digits + 1, exponent⟩
  match i.contains below.value, i.contains above.value with
  | true, true => some (nearer i.middle below above)
  | true, false => some below
  | false, true => some above
  | false, false => none

/-- The decimal without zeros at its end, of which there are fewer than
`fuel`. -/
def Digits.trimmed (d : Digits) : Nat → Digits
  | 0 => d
  | fuel + 1 =>
    if d.digits ≠ 0 && d.digits % 10 = 0 then Digits.trimmed ⟨d.digits / 10, d.exponent + 1⟩ fuel
    else d

/-- The shortest decimal that stands for a positive number. Seventeen digits
are always enough for 64 bits. -/
def shortest (b : Binary) : Digits :=
  let i := b.interval
  let leading := leadingExponent i.middle
  let grids := (List.range 17).map fun (count : Nat) => leading - (count : Int)
  ((grids.findSome? (onGrid? i)).getD ⟨0, 0⟩).trimmed 20

end Generics.Decimal

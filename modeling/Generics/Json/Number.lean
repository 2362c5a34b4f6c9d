/-
Generics.Json.Number — numbers in JSON text and the values they stand for.

    number  ::=  ['-'] whole ['.' digit+] [('e' | 'E') ['+' | '-'] digit+]
    whole   ::=  '0' | [1-9] digit*

A whole number within 64 bits is an integer. Every other number is a floating
point one. Its digits are gathered into a significand of at most 64 bits, and
digits that do not fit only count as places; the significand is then scaled by
a power of ten in floating point arithmetic.
-/
namespace Generics.Json

/-- The value of a number. -/
inductive Number where
  | integer (value : Int)
  | float (value : Float)

/-! ## 1. Spelling -/

/-- The parts of a written number. -/
structure NumberText where
  negative : Bool
  whole : List Char
  /-- The digits after the point, if there is one. -/
  fraction : Option (List Char)
  /-- Whether the exponent is negative, and its digits, if there is one. -/
  exponent : Option (Bool × List Char)

/-- The digits at the front of a text, and the rest. -/
def digitsOf (cs : List Char) : List Char × List Char :=
  (cs.takeWhile Char.isDigit, cs.dropWhile Char.isDigit)

/-- The whole part of a number. A leading zero stands alone. -/
def readWhole? (cs : List Char) : Option (List Char × List Char) :=
  match digitsOf cs with
  | ([], _) => none
  | ('0' :: _ :: _, _) => none
  | (digits, rest) => some (digits, rest)

/-- The digits after a point, if a point comes next. -/
def readFraction? : List Char → Option (Option (List Char) × List Char)
  | '.' :: rest =>
    match digitsOf rest with
    | ([], _) => none
    | (digits, rest) => some (some digits, rest)
  | cs => some (none, cs)

/-- The sign of an exponent. -/
def readExponentSign : List Char → Bool × List Char
  | '+' :: rest => (false, rest)
  | '-' :: rest => (true, rest)
  | cs => (false, cs)

/-- The exponent, if one comes next. -/
def readExponent? : List Char → Option (Option (Bool × List Char) × List Char)
  | [] => some (none, [])
  | c :: rest =>
    if c == 'e' || c == 'E' then
      let (negative, rest) := readExponentSign rest
      match digitsOf rest with
      | ([], _) => none
      | (digits, rest) => some (some (negative, digits), rest)
    else some (none, c :: rest)

/-- The sign of a number, which is written only if it is negative. -/
def readSign : List Char → Bool × List Char
  | '-' :: rest => (true, rest)
  | cs => (false, cs)

/-- The number at the front of a text, and the rest. -/
def readNumberText? (cs : List Char) : Option (NumberText × List Char) :=
  match readWhole? (readSign cs).2 with
  | none => none
  | some (whole, afterWhole) =>
    match readFraction? afterWhole with
    | none => none
    | some (fraction, afterFraction) =>
      match readExponent? afterFraction with
      | none => none
      | some (exponent, rest) => some (⟨(readSign cs).1, whole, fraction, exponent⟩, rest)

/-! Each part of a number takes its characters from the front of the text, and
there is at least one digit, so what follows a number is shorter. -/

theorem length_digitsOf (cs : List Char) :
    (digitsOf cs).1.length + (digitsOf cs).2.length = cs.length := by
  have h := congrArg List.length (List.takeWhile_append_dropWhile (p := Char.isDigit) (l := cs))
  rwa [List.length_append] at h

theorem length_readWhole? {cs digits rest : List Char} (h : readWhole? cs = some (digits, rest)) :
    rest.length < cs.length := by
  have hlen := length_digitsOf cs
  unfold readWhole? at h
  split at h
  · contradiction
  · contradiction
  · rename_i hne _ heq
    rw [heq] at hlen
    cases h
    cases digits with
    | nil => exact absurd rfl hne
    | cons d ds =>
      simp only [List.length_cons] at hlen
      omega

theorem length_readFraction? {cs rest : List Char} {digits : Option (List Char)}
    (h : readFraction? cs = some (digits, rest)) : rest.length ≤ cs.length := by
  unfold readFraction? at h
  split at h
  · rename_i r
    have hlen := length_digitsOf r
    split at h
    · contradiction
    · rename_i heq
      rw [heq] at hlen
      cases h
      simp only [List.length_cons] at hlen ⊢
      omega
  · cases h
    exact Nat.le_refl _

theorem length_readExponentSign (cs : List Char) :
    (readExponentSign cs).2.length ≤ cs.length := by
  unfold readExponentSign
  split <;> simp

theorem length_readExponent? {cs rest : List Char} {exponent : Option (Bool × List Char)}
    (h : readExponent? cs = some (exponent, rest)) : rest.length ≤ cs.length := by
  unfold readExponent? at h
  split at h
  · cases h
    exact Nat.le_refl _
  · rename_i c r
    split at h
    · have hsign := length_readExponentSign r
      have hlen := length_digitsOf (readExponentSign r).2
      simp only at h
      split at h
      · contradiction
      · rename_i heq
        rw [heq] at hlen
        cases h
        simp only [List.length_cons] at hlen ⊢
        omega
    · cases h
      exact Nat.le_refl _

theorem length_readSign (cs : List Char) : (readSign cs).2.length ≤ cs.length := by
  unfold readSign
  split <;> simp

theorem length_readNumberText? {cs rest : List Char} {text : NumberText}
    (h : readNumberText? cs = some (text, rest)) : rest.length < cs.length := by
  have hsign := length_readSign cs
  unfold readNumberText? at h
  split at h
  · contradiction
  · rename_i hwhole
    have h₁ := length_readWhole? hwhole
    split at h
    · contradiction
    · rename_i hfraction
      have h₂ := length_readFraction? hfraction
      split at h
      · contradiction
      · rename_i hexponent
        have h₃ := length_readExponent? hexponent
        cases h
        omega

/-! ## 2. Value -/

/-- The value of a digit. -/
def digitValue (c : Char) : Nat :=
  c.toNat - '0'.toNat

/-- The value of digits. -/
def digitsValue (digits : List Char) : Nat :=
  digits.foldl (fun n c => n * 10 + digitValue c) 0

/-- The largest significand. -/
def maxSignificand : Nat := 0xffffffffffffffff

/-- Appends digits to a significand until the next one does not fit. Gives the
number of digits taken and the digits left over as well. -/
def gather (significand taken : Nat) : List Char → Nat × Nat × List Char
  | [] => (significand, taken, [])
  | c :: rest =>
    let next := significand * 10 + digitValue c
    if next ≤ maxSignificand then gather next (taken + 1) rest
    else (significand, taken, c :: rest)

/-- Ten to the power of `n`, as near as a floating point number comes. -/
def powerOfTen (n : Nat) : Float :=
  Float.ofScientific 1 false n

/-- The largest power of ten that is a floating point number. -/
def maxPower : Nat := 308

/-- Divides by ten to the power of `n`, in steps if that is not a floating point
number. -/
def scaleDown (x : Float) (n : Nat) : Float :=
  if n ≤ maxPower then x / powerOfTen n
  else if x == 0 then x
  else scaleDown (x / powerOfTen maxPower) (n - maxPower)
termination_by n
decreasing_by
  simp only [maxPower] at *
  omega

/-- Multiplies by ten to the power of `n`, if the result is finite. -/
def scaleUp? (x : Float) (n : Nat) : Option Float :=
  if n ≤ maxPower then
    let scaled := x * powerOfTen n
    if scaled.isInf then none else some scaled
  else if x == 0 then some x
  else none

/-- A significand times a power of ten. -/
def scale? (significand : Nat) : Int → Option Float
  | .ofNat n => scaleUp? (Float.ofNat significand) n
  | .negSucc n => some (scaleDown (Float.ofNat significand) (n + 1))

/-- The largest exponent that is read as a number. -/
def maxExponent : Nat := 0x7fffffff

/-- A significand with a written exponent. An exponent beyond all bounds makes
zero of the number, or puts it out of range. -/
def withExponent? (significand : Nat) (places : Int) : Option (Bool × List Char) → Option Float
  | none => scale? significand places
  | some (negative, digits) =>
    let exponent := digitsValue digits
    if maxExponent < exponent then
      if significand ≠ 0 && !negative then none else some 0
    else scale? significand (if negative then places - exponent else places + exponent)

/-- The number with a sign. -/
def signed (negative : Bool) (x : Float) : Float :=
  if negative then -x else x

/-- The value of a number, if it is in range. -/
def NumberText.value? (t : NumberText) : Option Number :=
  let (significand, _, excess) := gather 0 0 t.whole
  let float? (x : Option Float) : Option Number := x.map fun x => .float (signed t.negative x)
  match t.fraction, t.exponent with
  | none, none =>
    if !excess.isEmpty then float? (scale? significand excess.length)
    else if !t.negative then some (.integer significand)
    else if significand = 0 || 0x8000000000000000 < significand then
      some (.float (-(Float.ofNat significand)))
    else some (.integer (-(significand : Int)))
  | none, exponent => float? (withExponent? significand excess.length exponent)
  | some fraction, exponent =>
    let (significand, taken, _) := gather significand 0 fraction
    float? (withExponent? significand ((excess.length : Int) - (taken : Int)) exponent)

end Generics.Json

/-
Generics.Json.Token — the words of JSON text.

Splitting text into words stops at the first place where no word can be read;
there the last word is `bad`. So the words before it are those that a reader
meets before it finds the text malformed.
-/
import Generics.Json.Number

namespace Generics.Json

/-- A word of JSON text. -/
inductive Token where
  | openBracket
  | closeBracket
  | openBrace
  | closeBrace
  | comma
  | colon
  | null
  | bool (value : Bool)
  | integer (value : Int)
  | float (value : Float)
  | string (value : String)
  /-- No word can be read here. -/
  | bad

/-! ## 1. Strings -/

/-- The characters that may stand between words. -/
def isSpace (c : Char) : Bool :=
  c == ' ' || c == '\t' || c == '\n' || c == '\r'

/-- The character that a letter stands for after a backslash. -/
def escaped? (c : Char) : Option Char :=
  if c == '"' || c == '\\' || c == '/' then some c
  else if c == 'b' then some '\x08'
  else if c == 'f' then some '\x0c'
  else if c == 'n' then some '\n'
  else if c == 'r' then some '\r'
  else if c == 't' then some '\t'
  else none

/-- The value of a hexadecimal digit. -/
def hexValue? (c : Char) : Option Nat :=
  if c.isDigit then some (c.toNat - '0'.toNat)
  else if 'a' ≤ c ∧ c ≤ 'f' then some (c.toNat - 'a'.toNat + 10)
  else if 'A' ≤ c ∧ c ≤ 'F' then some (c.toNat - 'A'.toNat + 10)
  else none

/-- The value of four hexadecimal digits. -/
def hexValue4? (a b c d : Char) : Option Nat :=
  match hexValue? a, hexValue? b, hexValue? c, hexValue? d with
  | some a, some b, some c, some d => some (((a * 16 + b) * 16 + c) * 16 + d)
  | _, _, _, _ => none

/-- The first half of a pair that stands for one character. -/
def isLeadingHalf (n : Nat) : Bool :=
  0xd800 ≤ n && n ≤ 0xdbff

/-- The second half of such a pair. -/
def isTrailingHalf (n : Nat) : Bool :=
  0xdc00 ≤ n && n ≤ 0xdfff

/-- The character that two halves stand for. -/
def pairedChar (leading trailing : Nat) : Char :=
  Char.ofNat (0x10000 + (leading - 0xd800) * 0x400 + (trailing - 0xdc00))

/-- The contents of a string after its opening quote, and the text after its
closing quote. Control characters stand in a string only as escapes, and the
halves of a pair only together. -/
def readString? : List Char → Option (List Char × List Char)
  | [] => none
  | c :: rest =>
    if c == '"' then some ([], rest)
    else if c == '\\' then
      match rest with
      | 'u' :: h₁ :: h₂ :: h₃ :: h₄ :: rest =>
        match hexValue4? h₁ h₂ h₃ h₄ with
        | none => none
        | some n =>
          if isLeadingHalf n then
            match rest with
            | '\\' :: 'u' :: l₁ :: l₂ :: l₃ :: l₄ :: rest =>
              match hexValue4? l₁ l₂ l₃ l₄ with
              | none => none
              | some m =>
                if isTrailingHalf m then
                  (readString? rest).map fun (cs, rest) => (pairedChar n m :: cs, rest)
                else none
            | _ => none
          else if isTrailingHalf n then none
          else (readString? rest).map fun (cs, rest) => (Char.ofNat n :: cs, rest)
      | e :: rest =>
        match escaped? e with
        | none => none
        | some e => (readString? rest).map fun (cs, rest) => (e :: cs, rest)
      | [] => none
    else if c.toNat < 0x20 then none
    else (readString? rest).map fun (cs, rest) => (c :: cs, rest)

/-- What follows a string is shorter. -/
theorem length_readString? {cs contents rest : List Char}
    (h : readString? cs = some (contents, rest)) : rest.length < cs.length := by
  fun_induction readString? cs generalizing contents rest <;>
    simp_all [Option.map_eq_some_iff] <;> grind

/-! ## 2. Words -/

/-- The words of one character. -/
def punctuation? (c : Char) : Option Token :=
  match c with
  | '[' => some .openBracket
  | ']' => some .closeBracket
  | '\x7b' => some .openBrace
  | '\x7d' => some .closeBrace
  | ',' => some .comma
  | ':' => some .colon
  | _ => none

/-- A string without its opening quote. -/
def readString (cs : List Char) : Token × List Char :=
  match readString? cs with
  | none => (.bad, [])
  | some (contents, rest) => (.string (String.ofList contents), rest)

/-- A number. -/
def readNumber (cs : List Char) : Token × List Char :=
  match readNumberText? cs with
  | none => (.bad, [])
  | some (text, rest) =>
    match text.value? with
    | none => (.bad, [])
    | some (.integer n) => (.integer n, rest)
    | some (.float x) => (.float x, rest)

/-- A word of letters. -/
def readLiteral (cs : List Char) : Token × List Char :=
  match cs with
  | 'n' :: 'u' :: 'l' :: 'l' :: rest => (.null, rest)
  | 't' :: 'r' :: 'u' :: 'e' :: rest => (.bool true, rest)
  | 'f' :: 'a' :: 'l' :: 's' :: 'e' :: rest => (.bool false, rest)
  | _ => (.bad, [])

/-- The word that begins with `c`, and the text after it. -/
def readToken (c : Char) (rest : List Char) : Token × List Char :=
  match punctuation? c with
  | some token => (token, rest)
  | none =>
    if c == '"' then readString rest
    else if c == '-' || c.isDigit then readNumber (c :: rest)
    else readLiteral (c :: rest)

/-- What follows a word is shorter than the text that begins with it. -/
theorem length_readToken (c : Char) (rest : List Char) :
    (readToken c rest).2.length ≤ rest.length := by
  unfold readToken
  split
  · exact Nat.le_refl _
  · split
    · unfold readString
      split
      · exact Nat.zero_le _
      · rename_i hstring
        exact Nat.le_of_lt (length_readString? hstring)
    · split
      · unfold readNumber
        split
        · exact Nat.zero_le _
        · rename_i hnumber
          have hlt := length_readNumberText? hnumber
          rw [List.length_cons] at hlt
          split
          · exact Nat.zero_le _
          · exact Nat.le_of_lt_succ hlt
          · exact Nat.le_of_lt_succ hlt
      · unfold readLiteral
        split
        · rename_i h
          cases h
          simp only [List.length_cons]
          omega
        · rename_i h
          cases h
          simp only [List.length_cons]
          omega
        · rename_i h
          cases h
          simp only [List.length_cons]
          omega
        · exact Nat.zero_le _

/-- The words of a text. -/
def tokens (cs : List Char) : List Token :=
  match _h : cs.dropWhile isSpace with
  | [] => []
  | c :: rest =>
    match (readToken c rest).1 with
    | .bad => [.bad]
    | token => token :: tokens (readToken c rest).2
termination_by cs.length
decreasing_by
  have hspace := (List.dropWhile_sublist isSpace (l := cs)).length_le
  have htoken := length_readToken c rest
  rw [_h, List.length_cons] at hspace
  omega

end Generics.Json

/-
Generics.TypeExpr.Reader — reading a type expression from text.

The reader goes down into brackets as the grammar does: for an expression it
reads a name and, behind a bracket, one argument after the other, each of them
an expression again. It never goes back, so an error names the first character
at which no expression can go on.

    expr  ::=  blank* name blank* [ '<' expr (blank* ',' expr)* blank* '>' ]
    name  ::=  [A-Za-z_] [A-Za-z0-9_.]*

Blanks may also follow the whole expression. Positions count the bytes of the
UTF-8 encoding.
-/
import Generics.Limits
import Generics.Loop
import Generics.Text.Blank
import Generics.TypeExpr.Basic

namespace Generics.TypeExpr

/-! ## 1. What can go wrong -/

/-- Why a text is not a type expression. -/
inductive Fault where
  /-- A bracket opens below the deepest nesting allowed. -/
  | tooDeep
  /-- A name has to begin here. -/
  | expectedName
  /-- An argument has to be followed by another one or by the end of the list. -/
  | expectedSeparator
  /-- The expression is complete and something follows it. -/
  | trailingInput
  deriving DecidableEq, Repr

/-- The fault in words. -/
def Fault.message : Fault → String
  | .tooDeep => "generic nesting is too deep"
  | .expectedName => "expected a type name"
  | .expectedSeparator => "expected `,` or `>`"
  | .trailingInput => "unexpected trailing input"

/-- A refused text, the byte offset at which it was refused, and why. -/
structure ReadError where
  text : String
  offset : Nat
  fault : Fault
  deriving DecidableEq, Repr

/-- The error as one line of text. -/
def ReadError.message (e : ReadError) : String :=
  "malformed type expression " ++ Text.ticked e.text ++ " at offset " ++ toString e.offset ++ ": "
    ++ e.fault.message

/-! ## 2. Names -/

/-- A character that can begin a name. -/
def isNameStart (c : Char) : Bool :=
  c.isAlpha || c == '_'

/-- A character that can continue a name. -/
def isNameRest (c : Char) : Bool :=
  c.isAlphanum || c == '_' || c == '.'

/-! ## 3. Places in a text -/

/-- A place in a text: the number of bytes before it, and the characters behind it
(`ExprParser`). -/
structure Cursor where
  offset : Nat
  rest : List Char

/-- Behind the next characters as long as they satisfy `p`. -/
def Cursor.skipWhile (p : Char → Bool) (offset : Nat) : List Char → Cursor
  | [] => ⟨offset, []⟩
  | c :: rest =>
    if p c then skipWhile p (offset + c.utf8Size) rest else ⟨offset, c :: rest⟩

def Cursor.skipBlanks (s : Cursor) : Cursor :=
  .skipWhile Text.isAsciiBlank s.offset s.rest

/-- Behind the next character, if it is `c` (`eat`). -/
def Cursor.eat? (s : Cursor) (c : Char) : Option Cursor :=
  match s.rest with
  | [] => none
  | next :: rest => if next == c then some ⟨s.offset + next.utf8Size, rest⟩ else none

/-! ## 4. Reading -/

/-- What a reader of a part gives: the part and the place behind it, or the offset at which
the text was refused, and why. -/
abbrev Reading (α : Type) := Except (Nat × Fault) (α × Cursor)

instance {α : Type} : Nonempty (Reading α) := ⟨.error (0, .expectedName)⟩

/-- A name (`parse_ident`). -/
def readName (s : Cursor) : Reading String :=
  match s.rest with
  | [] => .error (s.offset, .expectedName)
  | c :: rest =>
    if isNameStart c then
      .ok (String.ofList (c :: rest.takeWhile isNameRest),
        .skipWhile isNameRest (s.offset + c.utf8Size) rest)
    else .error (s.offset, .expectedName)

/-- One argument more of a list of arguments, and what follows it: a comma before the next
one or the bracket that closes the list. The arguments `done` were read before, the last one
first. -/
def argumentTurn (readArgument : Cursor → Reading TypeExpr) :
    List TypeExpr × Cursor → (List TypeExpr × Cursor) ⊕ Reading (List TypeExpr)
  | (done, s) =>
    match readArgument s with
    | .error failure => .inr (.error failure)
    | .ok (e, s) =>
      let s := s.skipBlanks
      match s.eat? ',', s.eat? '>' with
      | some s, _ => .inl (e :: done, s)
      | none, some s => .inr (.ok ((e :: done).reverse, s))
      | none, none => .inr (.error (s.offset, .expectedSeparator))

/-- An expression inside `depth` brackets (`parse_expr`). -/
def readExpr (depth : Nat) (s : Cursor) : Reading TypeExpr :=
  if Limits.nesting < depth then .error (s.offset, .tooDeep)
  else
    match readName s.skipBlanks with
    | .error failure => .error failure
    | .ok (name, s) =>
      let s := s.skipBlanks
      match s.eat? '<' with
      | none => .ok (.mk name [], s)
      | some s =>
        match loop (argumentTurn fun s => readExpr (depth + 1) s) ([], s) with
        | .error failure => .error failure
        | .ok (args, s) => .ok (.mk name args, s)
termination_by Limits.nesting + 1 - depth

/-- The type expression that a text spells, or where and why it spells none (`parse`). -/
def read (text : String) : Except ReadError TypeExpr :=
  match readExpr 0 ⟨0, text.toList⟩ with
  | .error (offset, fault) => .error ⟨text, offset, fault⟩
  | .ok (e, s) =>
    let s := s.skipBlanks
    if s.rest.isEmpty then .ok e else .error ⟨text, s.offset, .trailingInput⟩

end Generics.TypeExpr

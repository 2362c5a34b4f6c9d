/-
Generics.Json.Reader — from JSON text to its tree.

Text is split into words, and the words are taken one after the other. The
state between two words holds the lists that are still open and what may come
next. If a word does not fit, the open lists are cut off where they stand, which
gives the tree of as much text as is well formed.
-/
import Generics.Json.Basic
import Generics.Json.Token

namespace Generics.Json

/-! ## 1. States -/

/-- A list that is still open, its last entry first. -/
inductive Frame where
  | array (items : List Json)
  /-- An object, with the key whose value is to come. -/
  | member (members : List (String × Json)) (key : String)

/-- What may come next. -/
inductive Phase where
  /-- A value. -/
  | value
  /-- The first item of an array, or its end. -/
  | firstItem
  /-- A key, or, if there is none yet, the end of the object. -/
  | key (members : List (String × Json))
  /-- The colon after a key. -/
  | colon (members : List (String × Json)) (key : String)
  /-- What can follow a value, which is here. -/
  | after (value : Json)

/-- The reader between two words: the open lists, innermost first, and what may
come next. -/
structure State where
  stack : List Frame
  phase : Phase

/-- Before the first word. -/
def State.start : State where
  stack := []
  phase := .value

/-- The value of a document that is complete. -/
def State.result? (s : State) : Option Json :=
  match s.stack, s.phase with
  | [], .after value => some value
  | _, _ => none

/-- Closes open lists as broken off, with `value` the last that was read. -/
def cutFrames (value : Json) : List Frame → Json
  | [] => value
  | .array items :: outer => cutFrames (.array (value :: items).reverse .broken) outer
  | .member members key :: outer =>
    cutFrames (.object ((key, value) :: members).reverse .broken) outer

/-- The tree of what was read, if nothing more can be. -/
def State.cut (s : State) : Json :=
  match s.phase with
  | .value => cutFrames .broken s.stack
  | .firstItem => cutFrames (.array [] .broken) s.stack
  | .key members => cutFrames (.object members.reverse .broken) s.stack
  | .colon members key =>
    cutFrames (.object ((key, .broken) :: members).reverse .broken) s.stack
  | .after value =>
    match s.stack with
    | [] => value
    | .array items :: outer => cutFrames (.array (value :: items).reverse .broken) outer
    | .member members key :: outer =>
      cutFrames (.object ((key, value) :: members).reverse .broken) outer

/-! ## 2. Steps -/

/-- A word where a value may begin. -/
def valueStep (stack : List Frame) : Token → Option State
  | .null => some ⟨stack, .after .null⟩
  | .bool value => some ⟨stack, .after (.bool value)⟩
  | .integer value => some ⟨stack, .after (.integer value)⟩
  | .float value => some ⟨stack, .after (.float value)⟩
  | .string value => some ⟨stack, .after (.string value)⟩
  | .openBracket => some ⟨stack, .firstItem⟩
  | .openBrace => some ⟨stack, .key []⟩
  | _ => none

/-- A word after a value, which can only continue or close the innermost
list. -/
def separatorStep (value : Json) : List Frame → Token → Option State
  | .array items :: outer, .comma => some ⟨.array (value :: items) :: outer, .value⟩
  | .array items :: outer, .closeBracket =>
    some ⟨outer, .after (.array (value :: items).reverse .closed)⟩
  | .member members key :: outer, .comma => some ⟨outer, .key ((key, value) :: members)⟩
  | .member members key :: outer, .closeBrace =>
    some ⟨outer, .after (.object ((key, value) :: members).reverse .closed)⟩
  | _, _ => none

/-- One word further, if the word fits. -/
def State.step (s : State) (t : Token) : Option State :=
  match s.phase, t with
  | .value, t => valueStep s.stack t
  | .firstItem, .closeBracket => some ⟨s.stack, .after (.array [] .closed)⟩
  | .firstItem, t => valueStep (.array [] :: s.stack) t
  | .key [], .closeBrace => some ⟨s.stack, .after (.object [] .closed)⟩
  | .key members, .string key => some ⟨s.stack, .colon members key⟩
  | .key _, _ => none
  | .colon members key, .colon => some ⟨.member members key :: s.stack, .value⟩
  | .colon .., _ => none
  | .after value, t => separatorStep value s.stack t

/-- The tree of a document, as far as it can be read, and the words after it. -/
def readTokens (s : State) : List Token → Json × List Token
  | [] => (s.cut, [])
  | t :: rest =>
    match s.result? with
    | some value => (value, t :: rest)
    | none =>
      match s.step t with
      | some next => readTokens next rest
      | none => (s.cut, [])

/-- The tree of a text and whether anything follows it. -/
def read (text : String) : Json × Bool :=
  let (value, rest) := readTokens .start (tokens text.toList)
  (value, !rest.isEmpty)

end Generics.Json

/-
Generics.Schema.Record — reading values of known shape from JSON trees.

A record is described by a table of its fields. It can be written as an object,
with its fields in any order, or as an array, with its fields in the order of
the table. Fields that are left out keep their initial value, unless they are
required. Reading goes from left to right and stops at the first fault.
-/
import Generics.Json.Basic

namespace Generics

/-- Why a document cannot be read. -/
inductive DocumentFault where
  /-- The text is not JSON, or goes on where it should end. -/
  | malformed
  /-- A value of another kind than the one expected. -/
  | invalidType (found : Found) (expected : String)
  /-- An array that is too short to hold the required fields. -/
  | invalidLength (length : Nat) (expected : String)
  | unknownField (name : String) (expected : List String)
  | duplicateField (name : String)
  | missingField (name : String)
  | unknownVariant (name : String) (expected : List String)

/-- Names to choose from, in words. -/
def oneOf : List String → String
  | [a] => Text.ticked a
  | [a, b] => Text.ticked a ++ " or " ++ Text.ticked b
  | names => "one of " ++ Text.commaSeparated (names.map Text.ticked)

/-- The fault in words. For malformed text there are none. -/
def DocumentFault.message? : DocumentFault → Option String
  | .malformed => none
  | .invalidType found expected =>
    some ("invalid type: " ++ found.describe ++ ", expected " ++ expected)
  | .invalidLength length expected =>
    some ("invalid length " ++ toString length ++ ", expected " ++ expected)
  | .unknownField name expected =>
    some ("unknown field " ++ Text.ticked name ++ ", expected " ++ oneOf expected)
  | .duplicateField name => some ("duplicate field " ++ Text.ticked name)
  | .missingField name => some ("missing field " ++ Text.ticked name)
  | .unknownVariant name expected =>
    some ("unknown variant " ++ Text.ticked name ++ ", expected " ++ oneOf expected)

/-- The outcome of reading. -/
abbrev Decoded := Except DocumentFault

/-! ## 1. Simple values -/

/-- A value that is not what was expected. -/
def Json.unexpected {α : Type} (j : Json) (expected : String) : Decoded α :=
  match j.found? with
  | none => .error .malformed
  | some found => .error (.invalidType found expected)

/-- The end of a list: nothing is wrong if it is closed. -/
def Closing.check {α : Type} (closing : Closing) (a : α) : Decoded α :=
  match closing with
  | .closed => .ok a
  | .broken => .error .malformed

/-- A string. -/
def decodeString : Json → Decoded String
  | .string text => .ok text
  | j => j.unexpected "a string"

/-- A string that may be absent. -/
def decodeOptionalString : Json → Decoded (Option String)
  | .null => .ok none
  | j => (decodeString j).map some

/-- The items of a list, from left to right. -/
def decodeItems {α : Type} (item : Json → Decoded α) : List Json → Decoded (List α)
  | [] => .ok []
  | j :: rest =>
    match item j with
    | .error fault => .error fault
    | .ok a => (decodeItems item rest).map (a :: ·)

/-- A list. -/
def decodeList {α : Type} (item : Json → Decoded α) : Json → Decoded (List α)
  | .array items closing =>
    match decodeItems item items with
    | .error fault => .error fault
    | .ok values => closing.check values
  | j => j.unexpected "a sequence"

/-! ## 2. Choices -/

/-- The value of a name in a table of choices. -/
def decodeName {α : Type} (variants : List (String × α)) (name : String) : Decoded α :=
  match variants.lookup name with
  | some a => .ok a
  | none => .error (.unknownVariant name (variants.map Prod.fst))

/-- A choice: a name, or an object with the name as its only key and nothing
for its value. -/
def decodeVariant {α : Type} (variants : List (String × α)) : Json → Decoded α
  | .string name => decodeName variants name
  | .object ((name, content) :: rest) closing =>
    match decodeName variants name, content with
    | .error fault, _ => .error fault
    | .ok a, .null => if rest.isEmpty then closing.check a else .error .malformed
    | .ok _, j => j.unexpected "unit"
  | _ => .error .malformed

/-! ## 3. Records -/

/-- A field of a record: its key, how it is read into the record, and whether
it may be left out. -/
structure Field (α : Type) where
  key : String
  decode : Json → α → Decoded α
  required : Bool := false

/-- The shape of a record: what it is called, its value before any field is
read, and its fields. -/
structure RecordShape (α : Type) where
  title : String
  initial : α
  fields : List (Field α)

namespace RecordShape

variable {α : Type}

/-- A value into which the members of an object are read in turn. `seen` holds
the keys read so far. -/
def decodeMembers (shape : RecordShape α) (closing : Closing) (seen : List String) (record : α) :
    List (String × Json) → Decoded α
  | [] =>
    match closing with
    | .closed =>
      match shape.fields.find? fun f => f.required && !seen.contains f.key with
      | some f => .error (.missingField f.key)
      | none => .ok record
    | .broken => .error .malformed
  | (key, content) :: rest =>
    match shape.fields.find? fun f => f.key == key with
    | none => .error (.unknownField key (shape.fields.map Field.key))
    | some f =>
      if seen.contains key then .error (.duplicateField key)
      else
        match f.decode content record with
        | .error fault => .error fault
        | .ok record => shape.decodeMembers closing (key :: seen) record rest

/-- A value into which the items of an array are read, one for each field.
`place` counts the fields read so far. -/
def decodePlaces (shape : RecordShape α) (closing : Closing) (place : Nat) (record : α) :
    List (Field α) → List Json → Decoded α
  | [], [] => closing.check record
  | [], _ :: _ => .error .malformed
  | f :: fields, [] =>
    match closing with
    | .closed =>
      match (f :: fields).findIdx? Field.required with
      | some skipped =>
        .error (.invalidLength (place + skipped)
          (shape.title ++ " with " ++ toString shape.fields.length ++ " elements"))
      | none => .ok record
    | .broken => .error .malformed
  | f :: fields, j :: rest =>
    match f.decode j record with
    | .error fault => .error fault
    | .ok record => shape.decodePlaces closing (place + 1) record fields rest

/-- A record. -/
def decode (shape : RecordShape α) : Json → Decoded α
  | .object members closing => shape.decodeMembers closing [] shape.initial members
  | .array items closing => shape.decodePlaces closing 0 shape.initial shape.fields items
  | j => j.unexpected shape.title

end RecordShape

end Generics

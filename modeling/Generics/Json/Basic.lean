/-
Generics.Json.Basic — JSON text as a tree, read as far as it is well formed.

A document is judged from left to right, and what was wrong first is what is
reported. A tree therefore also describes text that breaks off: a list says how
it ended, and a place where no value can be read holds `broken`. Nothing that
stands after such a place is in the tree.
-/
import Generics.Decimal.Layout
import Generics.Text.Listing
import Generics.Text.Quoted

namespace Generics

/-- What kind of value was found, with its value where that is a short one. -/
inductive Found where
  | null
  | bool (value : Bool)
  | integer (value : Int)
  | float (value : Float)
  | string (value : String)
  | sequence
  | map

/-- The value found, in words. -/
def Found.describe : Found → String
  | .null => "null"
  | .bool value => "boolean " ++ Text.ticked (if value then "true" else "false")
  | .integer value => "integer " ++ Text.ticked (toString value)
  | .float value => "floating point " ++ Text.ticked (Decimal.Layout.standard.float value)
  | .string value => "string " ++ Text.quoted value
  | .sequence => "sequence"
  | .map => "map"

/-- How a list of items or members ends. -/
inductive Closing where
  /-- With its closing bracket. -/
  | closed
  /-- Before its closing bracket: the text cannot be read on. -/
  | broken

/-- A JSON value, or as much of it as can be read. -/
inductive Json where
  | null
  | bool (value : Bool)
  | integer (value : Int)
  | float (value : Float)
  | string (value : String)
  | array (items : List Json) (closing : Closing)
  | object (members : List (String × Json)) (closing : Closing)
  /-- No value can be read here. -/
  | broken

namespace Json

/-- A complete list. -/
def list (items : List Json) : Json :=
  .array items .closed

/-- A complete object. -/
def record (members : List (String × Json)) : Json :=
  .object members .closed

/-- What kind of value this is, if any. -/
def found? : Json → Option Found
  | .null => some .null
  | .bool value => some (.bool value)
  | .integer value => some (.integer value)
  | .float value => some (.float value)
  | .string value => some (.string value)
  | .array .. => some .sequence
  | .object .. => some .map
  | .broken => none

end Json

end Generics

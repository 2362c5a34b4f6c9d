/-
Generics.Catalog.Error — why a catalogue refuses an operation.

Types are named in an error as they are displayed at the moment of refusal, so
an error can be read without the catalogue it came from.
-/
import Generics.Limits
import Generics.Node
import Generics.Text.Listing

namespace Generics

/-- Why one type cannot be the base of another. -/
inductive BaseFault where
  | ofInterface
  | ofParameter
  | ofApplication
  | toInterface
  | toParameter
  | toDefinition
  deriving DecidableEq, Repr

/-- The reason in words. -/
def BaseFault.message : BaseFault → String
  | .ofInterface => "interfaces have no base type"
  | .ofParameter => "type parameters have no base type"
  | .ofApplication => "instantiations inherit the base type of their definition"
  | .toInterface => "an interface cannot be a base type"
  | .toParameter => "a type parameter cannot be a base type"
  | .toDefinition => "an open generic definition cannot be a base type"

/-- Why one type cannot implement another. -/
inductive InterfaceFault where
  | ofParameter
  | ofApplication
  | notInterface
  | toDefinition
  deriving DecidableEq, Repr

/-- The reason in words. -/
def InterfaceFault.message : InterfaceFault → String
  | .ofParameter => "type parameters implement nothing"
  | .ofApplication => "instantiations inherit the interfaces of their definition"
  | .notInterface => "not an interface"
  | .toDefinition => "an open generic definition cannot be implemented"

/-- A refused operation on a catalogue (`GraphError`). -/
inductive CatalogError where
  /-- A number that the catalogue has not given out. -/
  | unknownType (id : TypeId)
  /-- Arguments for a type that is not an open definition. -/
  | notDefinition (type : String)
  /-- Too few or too many arguments for a definition. -/
  | arityMismatch (type : String) (expected actual : Nat)
  | invalidBase (type base : String) (fault : BaseFault)
  | invalidInterface (type implemented : String) (fault : InterfaceFault)
  /-- A type that inherits from itself. -/
  | inheritanceCycle (type : String)
  /-- An application that nests deeper than `Limits.nesting`. -/
  | nestingTooDeep (type : String)
  /-- An application beyond `Limits.applications`. -/
  | tooManyApplications
  deriving DecidableEq, Repr

/-- The error as one line of text. -/
def CatalogError.message : CatalogError → String
  | .unknownType id => "TypeId(" ++ toString id.index ++ ") does not belong to this graph"
  | .notDefinition type => Text.ticked type ++ " is not an open generic definition"
  | .arityMismatch type expected actual =>
    Text.ticked type ++ " expects " ++ toString expected ++ " generic argument(s), found "
      ++ toString actual
  | .invalidBase type base fault =>
    Text.ticked base ++ " cannot be the base type of " ++ Text.ticked type ++ ": " ++ fault.message
  | .invalidInterface type implemented fault =>
    Text.ticked implemented ++ " cannot be implemented by " ++ Text.ticked type ++ ": "
      ++ fault.message
  | .inheritanceCycle type => "inheritance cycle through " ++ Text.ticked type
  | .nestingTooDeep type =>
    "instantiating " ++ Text.ticked type ++ " exceeds the generic nesting limit of "
      ++ toString Limits.nesting
  | .tooManyApplications =>
    "more than " ++ toString Limits.applications ++ " instantiations were materialized"

end Generics

/-
Generics.Inference.Error — why type arguments cannot be inferred.

Types appear as displayed text, so a diagnosis can be shown without the
hierarchy it came from.
-/
import Generics.Ancestor
import Generics.Catalog.Display

namespace Generics

/-- A coarse class of inference failures (`ErrorKind`). -/
inductive FailureKind where
  | argumentCount
  | noMatchingAncestor
  | ambiguousAncestor
  | notGeneric
  | noSuchArgument
  | ambiguousInference
  | unresolvableInference
  deriving DecidableEq, Repr

/-- Why one type parameter could not be bound (`FailureReason`). -/
inductive BindingFault where
  | noMatchingAncestor (argument shape : String)
  | ambiguousAncestor (argument shape : String) (candidates : List String)
  | notGeneric (type : String) (depth : Nat)
  | noSuchArgument (type : String) (index : Nat)
  /-- The parameter occurs, with different types. -/
  | ambiguousInference (candidates : List String)
  /-- The parameter occurs nowhere. -/
  | unresolvableInference
  deriving DecidableEq, Repr

namespace BindingFault

/-- The class of the reason. -/
def kind : BindingFault → FailureKind
  | noMatchingAncestor .. => .noMatchingAncestor
  | ambiguousAncestor .. => .ambiguousAncestor
  | notGeneric .. => .notGeneric
  | noSuchArgument .. => .noSuchArgument
  | ambiguousInference _ => .ambiguousInference
  | unresolvableInference => .unresolvableInference

/-- The reason in words. -/
def message : BindingFault → String
  | noMatchingAncestor argument shape =>
    Text.ticked argument ++ " has no ancestor matching " ++ Text.ticked shape
  | ambiguousAncestor argument shape candidates =>
    Text.ticked argument ++ " has several ancestors matching " ++ Text.ticked shape ++ ": "
      ++ Text.commaSeparated candidates
  | notGeneric type depth =>
    Text.ticked type ++ " is not generic but the occurrence lies " ++ toString depth
      ++ " level(s) below it"
  | noSuchArgument type index =>
    "generic argument " ++ toString index ++ " is out of range for " ++ Text.ticked type
  | ambiguousInference candidates => "conflicting inferences " ++ Text.commaSeparated candidates
  | unresolvableInference => "does not occur in any parameter type"

/-- A failed look-up as the reason of a failure. -/
def ofLookupError (c : Catalog) : LookupError → BindingFault
  | .noMatchingAncestor concrete shape => noMatchingAncestor (c.display concrete) (c.display shape)
  | .ambiguousAncestor concrete shape candidates =>
    ambiguousAncestor (c.display concrete) (c.display shape) (c.displayAll candidates)
  | .notGeneric type steps => notGeneric (c.display type) steps
  | .noSuchArgument type index => noSuchArgument (c.display type) index

end BindingFault

/-- A type parameter that could not be bound: its name, its position among the
type parameters of the method, and why (`ParameterFailure`). -/
structure UnboundParameter where
  parameter : String
  position : Nat
  reason : BindingFault
  deriving DecidableEq, Repr

/-- The failure in words. -/
def UnboundParameter.message (f : UnboundParameter) : String :=
  Text.ticked f.parameter ++ ": " ++ f.reason.message

/-- Why a call has no inferred type arguments. -/
inductive InferenceError where
  /-- The call has too few or too many arguments. -/
  | argumentCount (method : String) (expected actual : Nat)
  /-- Some type parameters could not be bound; the failures are in the order of
  the parameters. -/
  | failed (method : String) (arguments : List String) (failures : List UnboundParameter)
  deriving DecidableEq, Repr

namespace InferenceError

/-- The method that was called. -/
def method : InferenceError → String
  | argumentCount method .. => method
  | failed method .. => method

/-- The type parameters that could not be bound. -/
def failures : InferenceError → List UnboundParameter
  | argumentCount .. => []
  | failed _ _ failures => failures

/-- The classes of all failures. -/
def kinds : InferenceError → List FailureKind
  | argumentCount .. => [.argumentCount]
  | failed _ _ failures => failures.map fun f => f.reason.kind

/-- The class of the first failure. -/
def kind (e : InferenceError) : FailureKind :=
  e.kinds.head?.getD .unresolvableInference

/-- The error as one line of text. -/
def message : InferenceError → String
  | argumentCount method expected actual =>
    Text.ticked method ++ " declares " ++ toString expected ++ " parameter(s) but "
      ++ toString actual ++ " argument type(s) were supplied"
  | failed method arguments failures =>
    "the type arguments of " ++ Text.ticked method ++ " cannot be inferred from ("
      ++ Text.commaSeparated arguments ++ "): "
      ++ "; ".intercalate (failures.map UnboundParameter.message)

end InferenceError

end Generics

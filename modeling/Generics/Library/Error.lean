/-
Generics.Library.Error — what can go wrong with a library of types and methods.
-/
import Generics.Catalog.Error
import Generics.Inference.Error
import Generics.Schema.Record
import Generics.TypeExpr.Reader

namespace Generics

/-- Why a library cannot be loaded, or a question about it answered (`SchemaError`). -/
inductive LibraryError where
  /-- The schema document cannot be read. -/
  | document (fault : DocumentFault)
  /-- A type expression cannot be read. -/
  | expression (error : TypeExpr.ReadError)
  /-- A name in a type expression that stands for nothing. -/
  | unknownType (name expr : String)
  | unknownMethod (name : String)
  | duplicateType (name : String)
  | duplicateMethod (name : String)
  /-- Arguments for a type parameter. -/
  | parameterWithArguments (name : String)
  /-- An application that a finished hierarchy does not have. -/
  | notMaterialized (expr : String)
  | catalog (error : CatalogError)
  | inference (error : InferenceError)

/-- The error as one line of text, if it has one: of malformed documents no more
is said than that they are malformed. -/
def LibraryError.message? : LibraryError → Option String
  | .document fault => fault.message?.map ("invalid schema JSON: " ++ ·)
  | .expression error => some error.message
  | .unknownType name expr =>
    some ("unknown type " ++ Text.ticked name ++ " in " ++ Text.ticked expr)
  | .unknownMethod name => some ("unknown method " ++ Text.ticked name)
  | .duplicateType name => some ("type " ++ Text.ticked name ++ " is declared more than once")
  | .duplicateMethod name => some ("method " ++ Text.ticked name ++ " is declared more than once")
  | .parameterWithArguments name =>
    some ("type parameter " ++ Text.ticked name ++ " cannot take generic arguments")
  | .notMaterialized expr =>
    some (Text.ticked expr ++ " was never instantiated in the finished graph")
  | .catalog error => some error.message
  | .inference error => some error.message

end Generics

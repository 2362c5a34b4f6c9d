/-
Generics.Schema.Basic — declarations of types and methods as data.

A schema lists types, which may refer to each other in any order, and methods
over them. Types are mentioned by type expressions, kept here as text.
-/
import Generics.Inference.Basic
import Generics.Node

namespace Generics

/-- The declaration of a type. -/
structure TypeDecl where
  name : String
  kind : Kind := .classType
  params : List String := []
  base : Option String := none
  interfaces : List String := []
  deriving DecidableEq, Repr

/-- The declaration of a method. -/
structure MethodDecl where
  name : String
  typeParams : List String := []
  params : List String := []
  deriving DecidableEq, Repr

/-- Types, methods, and how type arguments of calls are inferred (`TypeSchema`). -/
structure Schema where
  types : List TypeDecl := []
  methods : List MethodDecl := []
  options : InferenceOptions := {}
  deriving DecidableEq, Repr

end Generics

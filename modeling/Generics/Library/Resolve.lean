/-
Generics.Library.Resolve — the types that type expressions stand for.

Against a catalogue that still grows, resolving an expression enters the
applications it mentions. Against a finished hierarchy it only finds those that
are there.
-/
import Generics.Catalog.Build
import Generics.Hierarchy
import Generics.Library.Error

namespace Generics

/-! ## 1. In a growing catalogue -/

/-- A computation that grows a catalogue while a library is loaded. What was
added before a failure remains. -/
abbrev Load := ExceptT LibraryError (StateM Catalog)

/-- An operation on the catalogue as a part of loading. -/
def Load.ofBuild {α : Type} (x : Build α) : Load α :=
  ExceptT.adapt LibraryError.catalog x

/-- The type parameters that names stand for inside a declaration. -/
abbrev Scope := List (String × TypeId)

/-- The scope of parameters declared together. Where a name is used twice, it
stands for the last parameter of that name. -/
def Scope.ofParams (names : List String) (ids : List TypeId) : Scope :=
  (names.zip ids).reverse

namespace Load

mutual

/-- The type of an expression, which is part of the text `source` (`resolve_in_builder`).
Names are looked for among the parameters in scope first. -/
def resolve (scope : Scope) (source : String) : TypeExpr → Load TypeId
  | .mk name args =>
    match scope.lookup name with
    | some param =>
      if args.isEmpty then return param else throw (.parameterWithArguments name)
    | none => do
      let c ← get
      match c.lookupName? name with
      | none => throw (.unknownType name source)
      | some id =>
        if args.isEmpty then return id
        else
          let ids ← resolveAll scope source args
          ofBuild (Catalog.instantiate id ids)

/-- The types of several expressions, from left to right. -/
def resolveAll (scope : Scope) (source : String) : List TypeExpr → Load (List TypeId)
  | [] => return []
  | e :: rest => do
    let id ← resolve scope source e
    let ids ← resolveAll scope source rest
    return id :: ids

end

/-- The type of a written expression. -/
def resolveText (scope : Scope) (text : String) : Load TypeId :=
  match TypeExpr.read text with
  | .error e => throw (.expression e)
  | .ok e => resolve scope text e

end Load

/-! ## 2. In a finished hierarchy -/

namespace Hierarchy

mutual

/-- The type of an expression, which is part of the text `source` (`resolve_in_graph`).
The number of arguments is looked at before the arguments are. -/
def resolve (h : Hierarchy) (source : String) : TypeExpr → Except LibraryError TypeId
  | .mk name args =>
    match h.catalog.lookupName? name with
    | none => .error (.unknownType name source)
    | some id =>
      if args.isEmpty then .ok id
      else
        let expected := (h.catalog.params id).length
        if expected = 0 then .error (.catalog (.notDefinition (h.catalog.display id)))
        else if expected ≠ args.length then
          .error (.catalog (.arityMismatch (h.catalog.display id) expected args.length))
        else
          match h.resolveAll source args with
          | .error e => .error e
          | .ok ids =>
            match h.catalog.application? id ids with
            | some application => .ok application
            | none => .error (.notMaterialized source)

/-- The types of several expressions, from left to right. -/
def resolveAll (h : Hierarchy) (source : String) :
    List TypeExpr → Except LibraryError (List TypeId)
  | [] => .ok []
  | e :: rest =>
    match h.resolve source e with
    | .error e => .error e
    | .ok id => (h.resolveAll source rest).map (id :: ·)

end

/-- The type of a written expression. -/
def resolveText (h : Hierarchy) (text : String) : Except LibraryError TypeId :=
  match TypeExpr.read text with
  | .error e => .error (.expression e)
  | .ok e => h.resolve text e

end Hierarchy

end Generics

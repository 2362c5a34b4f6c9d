/-
Generics.Library.Basic — types and methods ready for use.

Loading a schema declares all its types, then links them, then declares its
methods, so that declarations may refer to each other in any order. The result
is a draft, in which further type expressions can be resolved. Finishing the
draft gives the library, in which calls are inferred.
-/
import Generics.Library.Resolve
import Generics.Schema.Document

namespace Generics

/-- A loaded schema whose catalogue can still grow (`SchemaLoader`). -/
structure LibraryDraft where
  catalog : Catalog
  methods : List Method
  options : InferenceOptions

/-- A finished hierarchy with named methods (`LoadedSchema`). -/
structure Library where
  hierarchy : Hierarchy
  methods : List Method
  options : InferenceOptions

/-! ## 1. Loading -/

namespace Load

/-- Declares types. -/
def declareTypes : List TypeDecl → Load (List TypeId)
  | [] => return []
  | decl :: rest => do
    let c ← get
    if (c.lookupName? decl.name).isSome then throw (.duplicateType decl.name)
    else
      let id ← modifyGet fun c => c.declare decl.kind decl.name decl.params
      let ids ← declareTypes rest
      return id :: ids

/-- Declares the interfaces of a type. -/
def linkInterfaces (scope : Scope) (type : TypeId) : List String → Load Unit
  | [] => return ()
  | text :: rest => do
    let implemented ← resolveText scope text
    ofBuild (Catalog.addInterface type implemented)
    linkInterfaces scope type rest

/-- Declares the base of a type, if it has one. -/
def linkBase (scope : Scope) (type : TypeId) : Option String → Load Unit
  | none => return ()
  | some text => do
    let base ← resolveText scope text
    ofBuild (Catalog.setBase type base)

/-- Links types to what they inherit. -/
def linkTypes : List (TypeDecl × TypeId) → Load Unit
  | [] => return ()
  | (decl, id) :: rest => do
    let c ← get
    let scope := Scope.ofParams decl.params (c.params id)
    linkBase scope id decl.base
    linkInterfaces scope id decl.interfaces
    linkTypes rest

/-- The types of written expressions, from left to right. -/
def resolveTexts (scope : Scope) : List String → Load (List TypeId)
  | [] => return []
  | text :: rest => do
    let id ← resolveText scope text
    let ids ← resolveTexts scope rest
    return id :: ids

/-- Declares methods; `names` holds those of the methods before. -/
def declareMethods (names : List String) : List MethodDecl → Load (List Method)
  | [] => return []
  | decl :: rest => do
    if names.contains decl.name then throw (.duplicateMethod decl.name)
    else
      let typeParams ← modifyGet fun c => c.addParameters decl.typeParams
      let params ← resolveTexts (Scope.ofParams decl.typeParams typeParams) decl.params
      let methods ← declareMethods (decl.name :: names) rest
      return ⟨decl.name, typeParams, params⟩ :: methods

/-- Declares all that a schema lists. -/
def schema (s : Schema) : Load (List Method) := do
  let ids ← declareTypes s.types
  linkTypes (s.types.zip ids)
  declareMethods [] s.methods

end Load

/-! ## 2. Drafts -/

namespace LibraryDraft

/-- The draft of a schema (`from_schema`). -/
def ofSchema (s : Schema) : Except LibraryError LibraryDraft :=
  match (Load.schema s).run.run .empty with
  | (.error e, _) => .error e
  | (.ok methods, catalog) => .ok ⟨catalog, methods, s.options⟩

/-- The draft of a schema document (`from_json`). -/
def ofText (text : String) : Except LibraryError LibraryDraft :=
  match Schema.ofText text with
  | .error fault => .error (.document fault)
  | .ok s => ofSchema s

/-- The type of a written expression. Applications that it mentions are entered,
also those to the left of a fault. -/
def resolve (d : LibraryDraft) (text : String) : Except LibraryError TypeId × LibraryDraft :=
  match (Load.resolveText [] text).run.run d.catalog with
  | (result, catalog) => (result, { d with catalog })

/-- The method of a name. -/
def method? (d : LibraryDraft) (name : String) : Option Method :=
  d.methods.find? fun m => m.name == name

/-- The finished library. -/
def finish (d : LibraryDraft) : Except LibraryError Library :=
  match d.catalog.finish with
  | .error e => .error (.catalog e)
  | .ok hierarchy => .ok ⟨hierarchy, d.methods, d.options⟩

end LibraryDraft

/-! ## 3. Libraries -/

namespace Library

/-- The library of a schema document (`from_json`). -/
def ofText (text : String) : Except LibraryError Library :=
  match LibraryDraft.ofText text with
  | .error e => .error e
  | .ok draft => draft.finish

/-- The method of a name. -/
def method? (l : Library) (name : String) : Option Method :=
  l.methods.find? fun m => m.name == name

/-- The types of written arguments, from left to right. -/
def resolveArguments (l : Library) : List String → Except LibraryError (List TypeId)
  | [] => .ok []
  | text :: rest =>
    match l.hierarchy.resolveText text with
    | .error e => .error e
    | .ok id => (l.resolveArguments rest).map (id :: ·)

/-- The type arguments of a call, whose argument types are written. -/
def infer (l : Library) (method : String) (arguments : List String) :
    Except LibraryError Inference :=
  match l.method? method with
  | none => .error (.unknownMethod method)
  | some m =>
    match l.resolveArguments arguments with
    | .error e => .error e
    | .ok ids => (l.hierarchy.catalog.infer l.options m ids).mapError .inference

end Library

end Generics

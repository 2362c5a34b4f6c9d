/-
Generics.Schema.Document — schemas as JSON documents.

    { "types": [ { "name": "List", "params": ["T"], "interfaces": ["IEnumerable<T>"] } ],
      "methods": [ { "name": "First", "type_params": ["T"], "params": ["IEnumerable<T>"] } ],
      "options": { "reconciliation": "exact" } }

Everything but the names may be left out. A written document has every field,
in the order of the tables below, and reading it gives the schema back.
-/
import Generics.Json.Reader
import Generics.Json.Writer
import Generics.Schema.Basic
import Generics.Schema.Record

namespace Generics

/-! ## 1. The fields of a document -/

/-- The names of the kinds of types. -/
def Kind.variants : List (String × Kind) :=
  [("class", .classType), ("interface", .interfaceType)]

/-- The names of the ways to reconcile candidates. -/
def Reconciliation.variants : List (String × Reconciliation) :=
  [("exact", .exact), ("nearest_common_base", .nearestCommonBase)]

/-- A type declaration in a document. -/
def TypeDecl.shape : RecordShape TypeDecl where
  title := "struct TypeDecl"
  initial := { name := "" }
  fields :=
    [ { key := "name", required := true,
        decode := fun j d => (decodeString j).map fun name => { d with name } },
      { key := "kind",
        decode := fun j d => (decodeVariant Kind.variants j).map fun kind => { d with kind } },
      { key := "params",
        decode := fun j d => (decodeList decodeString j).map fun params => { d with params } },
      { key := "base",
        decode := fun j d => (decodeOptionalString j).map fun base => { d with base } },
      { key := "interfaces",
        decode := fun j d =>
          (decodeList decodeString j).map fun interfaces => { d with interfaces } } ]

/-- A method declaration in a document. -/
def MethodDecl.shape : RecordShape MethodDecl where
  title := "struct MethodDecl"
  initial := { name := "" }
  fields :=
    [ { key := "name", required := true,
        decode := fun j d => (decodeString j).map fun name => { d with name } },
      { key := "type_params",
        decode := fun j d =>
          (decodeList decodeString j).map fun typeParams => { d with typeParams } },
      { key := "params",
        decode := fun j d => (decodeList decodeString j).map fun params => { d with params } } ]

/-- The options in a document. -/
def InferenceOptions.shape : RecordShape InferenceOptions where
  title := "struct InferenceOptions"
  initial := {}
  fields :=
    [ { key := "reconciliation",
        decode := fun j _ =>
          (decodeVariant Reconciliation.variants j).map fun reconciliation =>
            { reconciliation } } ]

/-- A whole document. -/
def Schema.shape : RecordShape Schema where
  title := "struct TypeSchema"
  initial := {}
  fields :=
    [ { key := "types",
        decode := fun j s =>
          (decodeList TypeDecl.shape.decode j).map fun types => { s with types } },
      { key := "methods",
        decode := fun j s =>
          (decodeList MethodDecl.shape.decode j).map fun methods => { s with methods } },
      { key := "options",
        decode := fun j s =>
          (InferenceOptions.shape.decode j).map fun options => { s with options } } ]

/-! ## 2. Reading -/

/-- The schema of a document. -/
def Schema.ofText (text : String) : Decoded Schema :=
  let (tree, more) := Json.read text
  match Schema.shape.decode tree with
  | .error fault => .error fault
  | .ok schema => if more then .error .malformed else .ok schema

/-! ## 3. Writing -/

/-- A list of texts as a JSON value. -/
def Json.strings (texts : List String) : Json :=
  .list (texts.map .string)

/-- The name of a kind. -/
def Kind.name : Kind → String
  | .classType => "class"
  | .interfaceType => "interface"

/-- The name of a way to reconcile. -/
def Reconciliation.name : Reconciliation → String
  | .exact => "exact"
  | .nearestCommonBase => "nearest_common_base"

/-- A type declaration as a JSON value. -/
def TypeDecl.toJson (d : TypeDecl) : Json :=
  .record
    [("name", .string d.name), ("kind", .string d.kind.name), ("params", .strings d.params),
      ("base", (d.base.map Json.string).getD .null), ("interfaces", .strings d.interfaces)]

/-- A method declaration as a JSON value. -/
def MethodDecl.toJson (d : MethodDecl) : Json :=
  .record
    [("name", .string d.name), ("type_params", .strings d.typeParams),
      ("params", .strings d.params)]

/-- The options as a JSON value. -/
def InferenceOptions.toJson (o : InferenceOptions) : Json :=
  .record [("reconciliation", .string o.reconciliation.name)]

/-- A schema as a JSON value. -/
def Schema.toJson (s : Schema) : Json :=
  .record
    [("types", .list (s.types.map TypeDecl.toJson)),
      ("methods", .list (s.methods.map MethodDecl.toJson)), ("options", s.options.toJson)]

/-- A schema as a document. -/
def Schema.toText (s : Schema) : String :=
  s.toJson.write

end Generics

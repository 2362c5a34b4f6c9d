/-
Generics.Catalog.Basic — a numbered list of types and what can be asked of it.

A catalogue holds its types in the order in which they were made. Beside the
list stand two indexes: the types that names were declared for, and the
applications that were made, by definition and arguments. The second one is
what makes an application unique: asking for it again finds the first.

Every question can be asked about every number. A number that the catalogue
has not given out has no node; it answers like a type without a name, without
arguments and without links.
-/
import Std.Data.HashMap
import Generics.Node

namespace Generics

/-- The types made so far, the declared names, and the applications (`TypeGraphBuilder`). -/
structure Catalog where
  nodes : Array Node
  declared : Std.HashMap String TypeId
  applications : Std.HashMap (TypeId × List TypeId) TypeId

namespace Catalog

/-- The catalogue without types. -/
def empty : Catalog where
  nodes := #[]
  declared := ∅
  applications := ∅

/-- How many types there are (`type_count`). -/
def size (c : Catalog) : Nat :=
  c.nodes.size

/-- The number that the next type will get. -/
def nextId (c : Catalog) : TypeId :=
  ⟨c.nodes.size⟩

/-- All numbers given out, in order. -/
def ids (c : Catalog) : List TypeId :=
  (List.range c.size).map TypeId.mk

/-- The node behind a number (`lookup`). -/
def node? (c : Catalog) (id : TypeId) : Option Node :=
  c.nodes[id.index]?

/-- Whether the catalogue has given out the number. -/
def knows (c : Catalog) (id : TypeId) : Bool :=
  (c.node? id).isSome

/-- The type first declared under a name (`lookup_name`). -/
def lookupName? (c : Catalog) (name : String) : Option TypeId :=
  c.declared[name]?

/-- The name of a type (`type_name`). -/
def name (c : Catalog) (id : TypeId) : String :=
  ((c.node? id).map Node.name).getD ""

/-- The arguments of a type; an open definition has its own parameters (`generic_args`). -/
def args (c : Catalog) (id : TypeId) : List TypeId :=
  ((c.node? id).map Node.args).getD []

/-- The parameters of an open definition (`type_params`). -/
def params (c : Catalog) (id : TypeId) : List TypeId :=
  ((c.node? id).map Node.params).getD []

/-- The base type (`base_type`). -/
def base? (c : Catalog) (id : TypeId) : Option TypeId :=
  (c.node? id).bind Node.base

/-- The interfaces. -/
def interfaces (c : Catalog) (id : TypeId) : List TypeId :=
  ((c.node? id).map Node.interfaces).getD []

/-- How deep applications nest in a type. -/
def depth (c : Catalog) (id : TypeId) : Nat :=
  ((c.node? id).map Node.depth).getD 0

/-- Whether the type is a type parameter. -/
def isParameter (c : Catalog) (id : TypeId) : Bool :=
  (c.node? id).any Node.isParameter

/-- Whether the type is an open definition. -/
def isDefinition (c : Catalog) (id : TypeId) : Bool :=
  (c.node? id).any Node.isDefinition

/-- Whether the type is an open definition or an application of one. -/
def isGeneric (c : Catalog) (id : TypeId) : Bool :=
  !(c.args id).isEmpty

/-- The definition that a type is an application of (`generic_definition`). An open definition,
standing for itself applied to its own parameters, is its own. -/
def definition? (c : Catalog) (id : TypeId) : Option TypeId :=
  match (c.node? id).map Node.form with
  | some (.definition _) => some id
  | some (.application definition _) => some definition
  | _ => none

/-- The type without its arguments: the definition of a generic type, and any
other type itself (`as_unbound`). -/
def unbound (c : Catalog) (id : TypeId) : TypeId :=
  (c.definition? id).getD id

/-- The application of a definition to arguments, if there is one (`instantiation`). A
definition applied to its own parameters is the definition itself. -/
def application? (c : Catalog) (definition : TypeId) (args : List TypeId) : Option TypeId :=
  if !args.isEmpty && c.params definition == args then some definition
  else c.applications[(definition, args)]?

end Catalog

end Generics

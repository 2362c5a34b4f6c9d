/-
Generics.Node — one type of a catalogue.

A type is known by its number. What stands behind the number is a node: a name,
what kind of type it is, how it is formed, and the types it is linked to.
Nodes refer to other types by number only, so types may refer to each other
freely while they are being declared.

Here and in the other modules a name in brackets at the end of a description, as
in "a type (`TypeData`)", is the one that the described interface has for the thing.
-/
namespace Generics

/-- The number of a type in its catalogue. Two types of one catalogue are the
same exactly when their numbers are. Numbers have no limit here. Kept in 32 bits
they are the same ones as long as there are no more than `2 ^ 32` types
(`Catalog.numbersFit_performAll`). -/
structure TypeId where
  index : Nat
  deriving DecidableEq, Hashable, Repr

/-- The types of a list that were made before a given one. -/
def olderThan (id : TypeId) (ids : List TypeId) : List TypeId :=
  ids.filter fun a => a.index < id.index

theorem index_lt_of_mem_olderThan {a id : TypeId} {ids : List TypeId} (h : a ∈ olderThan id ids) :
    a.index < id.index :=
  of_decide_eq_true (List.mem_filter.mp h).2

/-- The two kinds of declared types. -/
inductive Kind where
  | classType
  | interfaceType
  deriving DecidableEq, Repr

/-- How a type is formed. -/
inductive Form where
  /-- A declared type without type parameters. -/
  | plain
  /-- A type parameter, with its position among the parameters declared
  together with it. -/
  | parameter (position : Nat)
  /-- A declared type with type parameters, open: it has no arguments yet, and
  used as a type it stands for itself applied to its own parameters. -/
  | definition (params : List TypeId)
  /-- A definition applied to arguments. -/
  | application (definition : TypeId) (args : List TypeId)
  deriving DecidableEq, Repr

/-- A type: its name (an application has that of its definition), kind and
form, how deep applications nest in it, and its links (`TypeData`). The links of a node are
the declared ones while the catalogue grows; finishing it completes them. -/
structure Node where
  name : String
  kind : Kind
  form : Form
  depth : Nat := 0
  base : Option TypeId := none
  interfaces : List TypeId := []
  deriving DecidableEq, Repr

namespace Node

/-- Whether the type is an interface or an application of one. -/
def isInterface (n : Node) : Bool :=
  n.kind == .interfaceType

/-- Whether the type is a type parameter. -/
def isParameter (n : Node) : Bool :=
  match n.form with
  | .parameter _ => true
  | _ => false

/-- Whether the type is an open definition. -/
def isDefinition (n : Node) : Bool :=
  match n.form with
  | .definition _ => true
  | _ => false

/-- Whether the type is an application of a definition (`is_instantiation`). -/
def isApplication (n : Node) : Bool :=
  match n.form with
  | .application .. => true
  | _ => false

/-- The position of a type parameter. -/
def position? (n : Node) : Option Nat :=
  match n.form with
  | .parameter position => some position
  | _ => none

/-- The arguments of the type: those of an application, and the parameters of
an open definition. -/
def args (n : Node) : List TypeId :=
  match n.form with
  | .definition params => params
  | .application _ args => args
  | _ => []

/-- The parameters of an open definition; no other type declares any. -/
def params (n : Node) : List TypeId :=
  match n.form with
  | .definition params => params
  | _ => []

/-- The types the node is linked to: its base first, then its interfaces. -/
def links (n : Node) : List TypeId :=
  n.base.toList ++ n.interfaces

/-- The traits of the type as a sum of bits: 1 for an interface, 2 for a type
parameter, 4 for an open definition (`TypeFlags`). -/
def traitBits (n : Node) : Nat :=
  (if n.isInterface then 1 else 0) + (if n.isParameter then 2 else 0)
    + (if n.isDefinition then 4 else 0)

end Node

end Generics

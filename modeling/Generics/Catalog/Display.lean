/-
Generics.Catalog.Display — types as a person reads them.

An application is written with its arguments, as in `Box<int>`. A definition
has a `_` in place of each parameter, as in `Dictionary<_, _>`. A number that
the catalogue does not know is shown as a number.

The arguments of an application are older than the application, which is why
the text comes to an end.
-/
import Generics.Catalog.Basic
import Generics.Text.Listing

namespace Generics

namespace Catalog

/-- The text of a type (`TypeFormatter`). -/
def display (c : Catalog) (id : TypeId) : String :=
  match c.node? id with
  | none => "<unknown #" ++ toString id.index ++ ">"
  | some node =>
    match node.form with
    | .plain => node.name
    | .parameter _ => node.name
    | .definition params => node.name ++ Text.bracketed (params.map fun _ => "_")
    | .application _ args =>
      node.name ++ Text.bracketed ((olderThan id args).attach.map fun a => c.display a.1)
termination_by id.index
decreasing_by exact index_lt_of_mem_olderThan a.2

/-- The texts of several types. -/
def displayAll (c : Catalog) (ids : List TypeId) : List String :=
  ids.map c.display

end Catalog

end Generics

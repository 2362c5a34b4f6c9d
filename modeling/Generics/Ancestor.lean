/-
Generics.Ancestor — what a type inherits from, and the ancestor of a shape.

The ancestors of a type are the type itself, the bases above it, nearest
first, and its interfaces. A shape picks among them: an open definition picks
its applications, a type parameter picks the type itself, and any other type
picks only itself.
-/
import Std.Data.HashSet
import Generics.Catalog.Basic

namespace Generics

/-- Why nothing definite stands at a place in a type (`PathError`). -/
inductive LookupError where
  /-- No ancestor of the type has the shape. -/
  | noMatchingAncestor (concrete shape : TypeId)
  /-- Several ancestors of the type have the shape. -/
  | ambiguousAncestor (concrete shape : TypeId) (candidates : List TypeId)
  /-- A step goes into the arguments of a type that has none; `steps` of them
  were taken before. -/
  | notGeneric (type : TypeId) (steps : Nat)
  /-- A step goes to an argument that the type does not have. -/
  | noSuchArgument (type : TypeId) (index : Nat)
  deriving DecidableEq, Repr

namespace Catalog

/-- The bases above a type, nearest first, for at most `steps` steps. -/
def basesWithin (c : Catalog) : Nat → TypeId → List TypeId
  | 0, _ => []
  | steps + 1, id =>
    match c.base? id with
    | none => []
    | some base => base :: c.basesWithin steps base

/-- The bases above a type, nearest first (`base_chain`). A finished hierarchy has no cycle,
so no chain is longer than the number of types; where links still form a
cycle the chain is cut at that length. -/
def bases (c : Catalog) (id : TypeId) : List TypeId :=
  c.basesWithin c.size id

/-- A type and the bases above it (`self_and_bases`). -/
def selfAndBases (c : Catalog) (id : TypeId) : List TypeId :=
  id :: c.bases id

/-- Whether a type has a shape that is not a type parameter. -/
def hasShape (c : Catalog) (shape id : TypeId) : Bool :=
  if c.isDefinition shape then c.definition? id == some shape else id == shape

/-- The distinct ancestors of a type that have a shape, bases before
interfaces. -/
def ancestorsOfShape (c : Catalog) (concrete shape : TypeId) : List TypeId :=
  ((c.selfAndBases concrete ++ c.interfaces concrete).filter (c.hasShape shape)).eraseDups

/-- The ancestor of a type that has a shape, if it is the only one (`get_ancestor`). Every type
has the shape of a type parameter. -/
def ancestor? (c : Catalog) (concrete shape : TypeId) : Except LookupError (Option TypeId) :=
  if c.isParameter shape then .ok (some concrete)
  else
    match c.ancestorsOfShape concrete shape with
    | [] => .ok none
    | [single] => .ok (some single)
    | candidates => .error (.ambiguousAncestor concrete shape candidates)

/-- The nearest type that each of the given types is or has as a base (`nearest_common_base`).
Interfaces do not count: two of them can be shared without either being the
nearer. -/
def nearestCommonBase? (c : Catalog) : List TypeId → Option TypeId
  | [] => none
  | first :: rest =>
    let others := rest.map fun id => Std.HashSet.ofList (c.selfAndBases id)
    (c.selfAndBases first).find? fun id => others.all fun chain => chain.contains id

theorem nearestCommonBase?_cons (c : Catalog) (first : TypeId) (rest : List TypeId) :
    c.nearestCommonBase? (first :: rest) =
      (c.selfAndBases first).find? fun id =>
        rest.all fun other => (c.selfAndBases other).contains id := by
  rw [nearestCommonBase?]
  congr 1
  funext id
  rw [List.all_map]
  congr 1
  funext other
  exact Std.HashSet.contains_ofList

end Catalog

end Generics

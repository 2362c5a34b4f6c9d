/-
Generics.Occurrence — where a type occurs inside another.

An occurrence is a path from a root type: at each step it says which argument
to enter. The empty path stands at the root itself. Evaluating an occurrence
against a concrete type first finds the ancestor that has the shape of the
root, then takes the same steps there.
-/
import Generics.Ancestor
import Generics.Loop

namespace Generics

/-- A place in `root`, reached by entering the arguments with these indices one
after the other (`ArgumentPath`). -/
structure Occurrence where
  root : TypeId
  indices : List Nat
  deriving DecidableEq, Repr

/-- Whether the place is the root itself. -/
def Occurrence.isBare (o : Occurrence) : Bool :=
  o.indices.isEmpty

/-- An occurrence in one of several parameter types, with the index of that
parameter (`PositionedPath`). -/
structure ParameterOccurrence where
  parameter : Nat
  occurrence : Occurrence
  deriving DecidableEq, Repr

/-! ## 1. Finding occurrences -/

namespace Catalog

/-- Puts the arguments of a type on the stack, each with the path that leads to it.
The last argument is put there first, so that the first one is on top. -/
def pushArguments (args : List TypeId) (path : List Nat) (stack : List (TypeId × List Nat)) :
    List (TypeId × List Nat) :=
  args.zipIdx.reverse.foldl (fun stack (a, index) => (a, path ++ [index]) :: stack) stack

/-- One turn of the search: takes the top of a stack of types, each with the path that
leads to it from `root`. The target is an occurrence, and nothing below it is looked at;
in the place of any other type come its arguments. The search is over when the stack is
empty. -/
def searchTurn (c : Catalog) (root target : TypeId) :
    List (TypeId × List Nat) × Array Occurrence →
      (List (TypeId × List Nat) × Array Occurrence) ⊕ Array Occurrence
  | ([], found) => .inr found
  | ((id, path) :: rest, found) =>
    if id = target then .inl (rest, found.push ⟨root, path⟩)
    else .inl (pushArguments (c.args id) path rest, found)

/-- Works off a stack, adding to the occurrences found before. The loop has no limit of
its own: it stops because no type is inside itself. -/
def searchOccurrences (c : Catalog) (root target : TypeId) (stack : List (TypeId × List Nat))
    (found : Array Occurrence) : Array Occurrence :=
  loop (c.searchTurn root target) (stack, found)

/-- The occurrences of a type in another, from left to right (`find_paths`). -/
def occurrences (c : Catalog) (root target : TypeId) : List Occurrence :=
  if root = target then [⟨target, []⟩]
  else (c.searchOccurrences root target [(root, [])] #[]).toList

/-- The occurrences of a type in a list of parameter types (`find_positioned_paths`). -/
def parameterOccurrences (c : Catalog) (params : List TypeId) (target : TypeId) :
    List ParameterOccurrence :=
  params.zipIdx.flatMap fun (root, parameter) =>
    (c.occurrences root target).map fun occurrence => ⟨parameter, occurrence⟩

end Catalog

/-! ## 2. Evaluating occurrences -/

namespace Catalog

/-- The type reached from `current` by entering arguments, after `steps` steps
on the way to `current`. -/
def descend (c : Catalog) (current : TypeId) (steps : Nat) : List Nat → Except LookupError TypeId
  | [] => .ok current
  | index :: rest =>
    match c.args current with
    | [] => .error (.notGeneric current steps)
    | args =>
      match args[index]? with
      | none => .error (.noSuchArgument current index)
      | some next => c.descend next (steps + 1) rest

/-- What stands in a concrete type at the place of an occurrence (`evaluate_path`). -/
def evaluate (c : Catalog) (o : Occurrence) (concrete : TypeId) : Except LookupError TypeId :=
  let shape := c.unbound o.root
  match c.ancestor? concrete shape with
  | .error e => .error e
  | .ok none => .error (.noMatchingAncestor concrete shape)
  | .ok (some ancestor) => c.descend ancestor 0 o.indices

/-- What stands at the place of an occurrence in the argument for its
parameter; nothing if there is no such argument. -/
def evaluateAt? (c : Catalog) (o : ParameterOccurrence) (arguments : List TypeId) :
    Option (Except LookupError TypeId) :=
  arguments[o.parameter]?.map (c.evaluate o.occurrence)

end Catalog

end Generics

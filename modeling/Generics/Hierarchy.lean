/-
Generics.Hierarchy — finished catalogues.

Links are declared on plain types and on definitions only. Finishing a
catalogue completes them in three steps:

  1. No type may inherit from itself. Applications inherit what their
     definition does, so it is enough to look at definitions.
  2. Each application gets the base and the interfaces of its definition, with
     its arguments for the parameters. New applications that arise on the way
     are treated in turn.
  3. Each type gets the list of all interfaces it inherits.
-/
import Generics.Catalog.Budget
import Generics.Digraph
import Generics.Distinct
import Generics.Loop

namespace Generics

/-- A catalogue whose links are complete (`TypeGraph`). It is read like any catalogue and
does not grow any more. -/
structure Hierarchy where
  catalog : Catalog

namespace Catalog

/-! ## 1. Cycles -/

/-- The definitions that a type is declared to inherit from, in the order in
which the search for cycles follows them: interfaces from the last to the
first, then the base (`declared_supertypes`). -/
def declaredSupertypes (c : Catalog) (index : Nat) : List Nat :=
  match c.node? ⟨index⟩ with
  | none => []
  | some node => (node.links.map fun id => (c.unbound id).index).reverse

/-- A type that inherits from itself, if there is one (`check_inheritance_cycles`). -/
def inheritanceCycle? (c : Catalog) : Option TypeId :=
  match Digraph.finishOrder c.size c.declaredSupertypes with
  | .error index => some ⟨index⟩
  | .ok _ => none

/-! ## 2. Links of applications -/

/-- Gives an application the links of its definition. Other types keep theirs. -/
def materialize (id : TypeId) : Build Unit := do
  let c ← get
  match c.node? id with
  | none => return ()
  | some node =>
    match node.form with
    | .application definition args =>
      match c.node? definition with
      | none => return ()
      | some definitionNode =>
        let σ := definitionNode.params.zip args
        let base ← substituteBase σ definitionNode.base
        let interfaces ← substituteAll σ definitionNode.interfaces
        modify fun c => c.setNode id { node with base, interfaces }
    | _ => return ()

theorem keepsBudget_materialize (id : TypeId) : KeepsBudget (materialize id) := by
  refine KeepsBudget.of_get fun c => ?_
  split
  · rfl
  · split
    · split
      · rfl
      · refine KeepsBudget.bind (keepsBudget_substituteBase _ _) (fun _ => ?_) c
        refine KeepsBudget.bind (keepsBudget_substituteAll _ _) fun _ => ?_
        exact fun c => budget_setNode c _ _
    · rfl

/-- Materializes the types from number `index` on, those included that are entered meanwhile
(`materialize_instantiations`). Applications are limited in number, so this ends. -/
def materializeFrom (index : Nat) (c : Catalog) : Except CatalogError Unit × Catalog :=
  if index < c.size then
    match h : (materialize ⟨index⟩).run.run c with
    | (.error e, c') => (.error e, c')
    | (.ok (), c') => materializeFrom (index + 1) c'
  else (.ok (), c)
termination_by c.budget - index
decreasing_by
  have hbudget := keepsBudget_materialize ⟨index⟩ c
  rw [h] at hbudget
  have hsize := c.size_le_budget
  simp only at hbudget
  omega

/-! ## 3. Inherited interfaces -/

/-- The lists of inherited interfaces worked out so far, by the number of the type. -/
abbrev InterfaceMemo := Array (Option (List TypeId))

/-- The list of a type, if it has been worked out. -/
def InterfaceMemo.list? (memo : InterfaceMemo) (id : TypeId) : Option (List TypeId) :=
  memo[id.index]?.join

/-- The interfaces of a type, given those that its supertypes inherit: its own,
then those of each of its own in turn, then those of its base. Of equal ones
the first stays. -/
def inheritedBy (memo : InterfaceMemo) (node : Node) : List TypeId :=
  let of (id : TypeId) : List TypeId := (memo.list? id).getD []
  distinct (node.interfaces ++ node.interfaces.flatMap of ++ node.base.toList.flatMap of)

/-- Puts on the stack the supertypes of a type that have no list yet. The base comes
to lie on top, below it the interfaces from the last to the first. -/
def pushSupertypes (memo : InterfaceMemo) (node : Node) (stack : List (TypeId × Bool)) :
    List (TypeId × Bool) :=
  ((node.interfaces ++ node.base.toList).filter fun link => (memo.list? link).isNone).foldl
    (fun stack link => (link, false) :: stack) stack

/-- One turn of working out lists: takes the top of a stack of types, each beside whether
its supertypes have been put on the stack before. A type that has a list is dropped. The
first time a type without one is met it stays on the stack, under its supertypes. The
second time its list is made from theirs. -/
def listingTurn (c : Catalog) :
    List (TypeId × Bool) × InterfaceMemo → (List (TypeId × Bool) × InterfaceMemo) ⊕ InterfaceMemo
  | ([], memo) => .inr memo
  | ((id, supertypesDone) :: rest, memo) =>
    match memo.list? id, c.node? id with
    | none, some node =>
      if supertypesDone then
        .inl (rest, memo.setIfInBounds id.index (some (inheritedBy memo node)))
      else .inl (pushSupertypes memo node ((id, true) :: rest), memo)
    | _, _ => .inl (rest, memo)

/-- The lists after a type has been put on the stack and worked off. The loop has no limit
of its own: it stops because no type inherits from itself. -/
def listFrom (c : Catalog) (memo : InterfaceMemo) (root : Nat) : InterfaceMemo :=
  loop c.listingTurn ([(⟨root⟩, false)], memo)

/-- The lists after each type has been put on the stack in turn (`flatten_interfaces`). -/
def interfaceMemo (c : Catalog) : InterfaceMemo :=
  (List.range c.size).foldl c.listFrom (Array.replicate c.size none)

/-- The interfaces that each type inherits. -/
def inheritedInterfaces (c : Catalog) : Array (List TypeId) :=
  c.interfaceMemo.map (·.getD [])

/-- The catalogue in which each type lists all interfaces it inherits. -/
def withInheritedInterfaces (c : Catalog) : Catalog :=
  let inherited := c.inheritedInterfaces
  { c with
    nodes := c.nodes.mapIdx fun index node =>
      { node with interfaces := inherited[index]?.getD [] } }

/-! ## 4. Finishing -/

/-- The finished catalogue, or why it cannot be finished. -/
def finish (c : Catalog) : Except CatalogError Hierarchy :=
  match c.inheritanceCycle? with
  | some id => .error (.inheritanceCycle (c.display id))
  | none =>
    match materializeFrom 0 c with
    | (.error e, _) => .error e
    | (.ok (), complete) => .ok ⟨complete.withInheritedInterfaces⟩

end Catalog

end Generics

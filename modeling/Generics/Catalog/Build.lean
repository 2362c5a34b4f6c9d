/-
Generics.Catalog.Build — the operations that grow a catalogue.

Declaring a type or a type parameter always succeeds. Applying a definition and
linking types can be refused; these run in `Build`, where a refusal ends the
run and the catalogue stays as far as it had come. A single operation that is
refused leaves the catalogue as it was.
-/
import Generics.Catalog.Display
import Generics.Catalog.Error

namespace Generics

/-- A computation that grows a catalogue and may be refused. What was added
before a refusal remains. -/
abbrev Build := ExceptT CatalogError (StateM Catalog)

namespace Catalog

/-! ## 1. Declarations -/

/-- A new type parameter (`type_parameter`). -/
def addParameter (c : Catalog) (name : String) (position : Nat) : TypeId × Catalog :=
  (c.nextId, { c with nodes := c.nodes.push ⟨name, .classType, .parameter position, 0, none, []⟩ })

/-- New type parameters with positions from `position` on. -/
def addParametersFrom (c : Catalog) (position : Nat) : List String → List TypeId × Catalog
  | [] => ([], c)
  | name :: names =>
    let (id, c) := c.addParameter name position
    let (ids, c) := c.addParametersFrom (position + 1) names
    (id :: ids, c)

/-- New type parameters that are declared together, as those of a method
(`method_type_params`). -/
def addParameters (c : Catalog) (names : List String) : List TypeId × Catalog :=
  c.addParametersFrom 0 names

/-- How a type is formed that is declared as number `id` with `count`
parameters, which get the numbers after it. -/
def declaredForm (id : TypeId) (count : Nat) : Form :=
  if count = 0 then .plain
  else .definition ((List.range count).map fun i => ⟨id.index + 1 + i⟩)

/-- A new class or interface with type parameters (`class`, `interface`, `generic_class`,
`generic_interface`). If the name was declared before, it keeps standing for the earlier
type. -/
def declare (c : Catalog) (kind : Kind) (name : String) (params : List String) : TypeId × Catalog :=
  let id := c.nextId
  let node : Node := ⟨name, kind, declaredForm id params.length, 0, none, []⟩
  let c : Catalog :=
    { c with nodes := c.nodes.push node, declared := c.declared.insertIfNew name id }
  (id, (c.addParameters params).2)

/-! ## 2. Applications -/

/-- How deep an application to these arguments nests. -/
def applicationDepth (c : Catalog) (args : List TypeId) : Nat :=
  (args.map c.depth).foldl max 0 + 1

/-- Enters an application that is not there yet. -/
def addApplication (c : Catalog) (definition : TypeId) (node : Node) (args : List TypeId) :
    TypeId × Catalog :=
  let id := c.nextId
  let depth := c.applicationDepth args
  (id,
    { c with
      nodes := c.nodes.push ⟨node.name, node.kind, .application definition args, depth, none, []⟩
      applications := c.applications.insert (definition, args) id })

/-- The application of a definition to arguments, entered if it is new (`instantiate`). Applied
to its own parameters a definition is itself.

The tests come in a fixed order: the definition, the number of arguments, the
arguments, then, for a new application only, the two limits. -/
def instantiate (definition : TypeId) (args : List TypeId) : Build TypeId := do
  let c ← get
  match c.node? definition with
  | none => throw (.unknownType definition)
  | some node =>
    match node.form with
    | .definition params =>
      if args.length ≠ params.length then
        throw (.arityMismatch (c.display definition) params.length args.length)
      else if args = params then
        return definition
      else
        match args.find? fun a => !c.knows a with
        | some a => throw (.unknownType a)
        | none =>
          match c.applications[(definition, args)]? with
          | some id => return id
          | none =>
            if Limits.nesting < c.applicationDepth args then
              throw (.nestingTooDeep (c.display definition))
            else if Limits.applications ≤ c.applications.size then
              throw .tooManyApplications
            else
              modifyGet fun c => c.addApplication definition node args
    | _ => throw (.notDefinition (c.display definition))

/-! ## 3. Links -/

/-- What speaks against a base, if anything does: first on the side of the
type, then on the side of the base. -/
def baseFault? (node base : Node) : Option BaseFault :=
  if node.isInterface then some .ofInterface
  else if node.isParameter then some .ofParameter
  else if node.isApplication then some .ofApplication
  else if base.isInterface then some .toInterface
  else if base.isParameter then some .toParameter
  else if base.isDefinition then some .toDefinition
  else none

/-- What speaks against an interface, if anything does. -/
def interfaceFault? (node implemented : Node) : Option InterfaceFault :=
  if node.isParameter then some .ofParameter
  else if node.isApplication then some .ofApplication
  else if !implemented.isInterface then some .notInterface
  else if implemented.isDefinition then some .toDefinition
  else none

/-- The catalogue with another node behind a number. -/
def setNode (c : Catalog) (id : TypeId) (node : Node) : Catalog :=
  { c with nodes := c.nodes.setIfInBounds id.index node }

/-- Declares the base of a type, in place of any declared before (`set_base`). -/
def setBase (type base : TypeId) : Build Unit := do
  let c ← get
  match c.node? type, c.node? base with
  | none, _ => throw (.unknownType type)
  | some _, none => throw (.unknownType base)
  | some node, some baseNode =>
    match baseFault? node baseNode with
    | some fault => throw (.invalidBase (c.display type) (c.display base) fault)
    | none => modify fun c => c.setNode type { node with base := some base }

/-- Declares that a type implements an interface; a second time adds nothing
(`add_interface`). -/
def addInterface (type implemented : TypeId) : Build Unit := do
  let c ← get
  match c.node? type, c.node? implemented with
  | none, _ => throw (.unknownType type)
  | some _, none => throw (.unknownType implemented)
  | some node, some interfaceNode =>
    match interfaceFault? node interfaceNode with
    | some fault => throw (.invalidInterface (c.display type) (c.display implemented) fault)
    | none =>
      if implemented ∈ node.interfaces then return ()
      else
        modify fun c =>
          c.setNode type { node with interfaces := node.interfaces ++ [implemented] }

end Catalog

end Generics

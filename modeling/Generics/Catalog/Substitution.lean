/-
Generics.Catalog.Substitution — types for type parameters.

Substituting into a type replaces its parameters at any depth and enters the
applications that arise. A definition used as a type stands for itself applied
to its own parameters, so it is substituted like an application.

The arguments of an application are older than the application, so the descent
ends. It goes from left to right, and a refusal ends it where it stands.
-/
import Generics.Catalog.Build

namespace Generics

/-- Types for type parameters. -/
abbrev Substitution := List (TypeId × TypeId)

namespace Catalog

/-- What becomes of a type whose arguments were `args` and are now
`substituted`: if nothing has changed it is the type itself. -/
def reapply (id definition : TypeId) (args substituted : List TypeId) : Build TypeId :=
  if substituted = args then return id else instantiate definition substituted

mutual

/-- A type after substitution. -/
def substitute (σ : Substitution) (id : TypeId) : Build TypeId :=
  match σ.lookup id with
  | some replacement => return replacement
  | none => do
    match (← get).node? id with
    | none => throw (.unknownType id)
    | some node =>
      match node.form with
      | .plain => return id
      | .parameter _ => return id
      | .definition params => reapply id id params (params.map fun p => (σ.lookup p).getD p)
      | .application definition args => do
        let substituted ← substituteArgs σ id args
        reapply id definition args substituted
termination_by (id.index, 1, 0)

/-- The arguments of an application after substitution, from left to right. -/
def substituteArgs (σ : Substitution) (id : TypeId) : List TypeId → Build (List TypeId)
  | [] => return []
  | a :: rest => do
    if a.index < id.index then
      let substituted ← substitute σ a
      let others ← substituteArgs σ id rest
      return substituted :: others
    else
      let others ← substituteArgs σ id rest
      return a :: others
termination_by args => (id.index, 0, args.length)

end

/-- Several types after substitution, from left to right. -/
def substituteAll (σ : Substitution) : List TypeId → Build (List TypeId)
  | [] => return []
  | id :: rest => do
    let substituted ← substitute σ id
    let others ← substituteAll σ rest
    return substituted :: others

/-- The base of a node after substitution. -/
def substituteBase (σ : Substitution) : Option TypeId → Build (Option TypeId)
  | none => return none
  | some base => do
    let substituted ← substitute σ base
    return some substituted

end Catalog

end Generics

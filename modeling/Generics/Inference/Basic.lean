/-
Generics.Inference.Basic — the type arguments of a generic method call.

For each type parameter of a method, every place where it occurs in the
parameter types is evaluated against the type of the matching argument. The
places must agree on one type, or, if the call allows it, on a common base.
Each type parameter is treated on its own; a call either binds all of them or
reports every one that could not be bound.
-/
import Generics.Distinct
import Generics.Inference.Error
import Generics.Occurrence

namespace Generics

/-- A method: its name, its type parameters and its parameter types, which may
mention the type parameters at any depth (`MethodTemplate`). -/
structure Method where
  name : String
  typeParams : List TypeId
  params : List TypeId
  deriving DecidableEq, Repr

/-- Whether the method has type parameters. -/
def Method.isGeneric (m : Method) : Bool :=
  !m.typeParams.isEmpty

/-- What happens to several candidates for one type parameter. -/
inductive Reconciliation where
  /-- They are a conflict. -/
  | exact
  /-- They give way to their nearest common base, if they have one. -/
  | nearestCommonBase
  deriving DecidableEq, Repr

/-- The settings of inference. -/
structure InferenceOptions where
  reconciliation : Reconciliation := .exact
  deriving DecidableEq, Repr

/-- The inferred type arguments of a method, each beside its type parameter
(`InferenceResult`). -/
structure Inference where
  method : String
  bindings : List (TypeId × TypeId)
  deriving DecidableEq, Repr

namespace Inference

/-- The type bound to a type parameter. -/
def get? (i : Inference) (param : TypeId) : Option TypeId :=
  i.bindings.lookup param

/-- The bound types in the order of the type parameters. -/
def typeArguments (i : Inference) : List TypeId :=
  i.bindings.map Prod.snd

/-- Whether there was nothing to infer. -/
def isPassthrough (i : Inference) : Bool :=
  i.bindings.isEmpty

end Inference

namespace Catalog

/-- The types that stand in the arguments at the places of occurrences, in the
order of the occurrences, or the first look-up that fails. -/
def evaluateAll (c : Catalog) (arguments : List TypeId) :
    List ParameterOccurrence → Except LookupError (List TypeId)
  | [] => .ok []
  | o :: rest =>
    match c.evaluateAt? o arguments with
    | none => c.evaluateAll arguments rest
    | some (.error e) => .error e
    | some (.ok id) => (c.evaluateAll arguments rest).map (id :: ·)

/-- One type out of distinct candidates (`reconcile`). -/
def reconcile (c : Catalog) (options : InferenceOptions) (candidates : List TypeId) :
    Except BindingFault TypeId :=
  match candidates with
  | [] => .error .unresolvableInference
  | [single] => .ok single
  | _ =>
    let common? :=
      match options.reconciliation with
      | .exact => none
      | .nearestCommonBase => c.nearestCommonBase? candidates
    match common? with
    | some common => .ok common
    | none => .error (.ambiguousInference (c.displayAll candidates))

/-- The type argument for one type parameter (`infer_parameter`). -/
def inferParameter (c : Catalog) (options : InferenceOptions) (params arguments : List TypeId)
    (typeParam : TypeId) : Except BindingFault TypeId :=
  match c.evaluateAll arguments (c.parameterOccurrences params typeParam) with
  | .error e => .error (.ofLookupError c e)
  | .ok candidates => c.reconcile options (distinct candidates)

/-- The type parameters with their type arguments, and the failures of those
that have none. Positions count from `position`. -/
def inferEach (c : Catalog) (options : InferenceOptions) (params arguments : List TypeId)
    (position : Nat) : List TypeId → List (TypeId × TypeId) × List UnboundParameter
  | [] => ([], [])
  | typeParam :: rest =>
    let (bindings, failures) := c.inferEach options params arguments (position + 1) rest
    match c.inferParameter options params arguments typeParam with
    | .ok id => ((typeParam, id) :: bindings, failures)
    | .error reason => (bindings, ⟨c.name typeParam, position, reason⟩ :: failures)

/-- The type arguments of a call (`infer`). A method without type parameters needs none,
whatever the arguments are. -/
def infer (c : Catalog) (options : InferenceOptions) (method : Method) (arguments : List TypeId) :
    Except InferenceError Inference :=
  if !method.isGeneric then .ok ⟨method.name, []⟩
  else if method.params.length ≠ arguments.length then
    .error (.argumentCount method.name method.params.length arguments.length)
  else
    match c.inferEach options method.params arguments 0 method.typeParams with
    | (bindings, []) => .ok ⟨method.name, bindings⟩
    | (_, failures) => .error (.failed method.name (c.displayAll arguments) failures)

end Catalog

end Generics

/-
Generics.Proofs.Inference.Completeness — type arguments that fit are found.

Suppose the type parameters of a method stand for given types, and each argument
of a call inherits from what its parameter type becomes under them. Then
inference answers these types (`infer_complete`). For each occurrence of a type
parameter the shape of the parameter type picks the right ancestor, since there
is no other of that shape, and the path of the occurrence leads in that ancestor
to the given type. So all occurrences agree, and how disagreements would be
reconciled does not matter.
-/
import Generics.Inference.Basic
import Generics.Proofs.Ancestor
import Generics.Proofs.Occurrence

namespace Generics.Catalog

open TypeTree

/-! ## 1. Arguments that fit -/

/-- The types `s` in place of the type parameters; other leaves stay. -/
def assigning (c : Catalog) (typeParams : List TypeId) (s : TypeId → TypeId) (id : TypeId) :
    TypeTree :=
  if id ∈ typeParams then c.tree (s id) else .leaf id

/-- An argument of the type `argument` fits a parameter of the type `param`, the
type parameters standing for the types `s`: either the parameter type is a type
parameter and the argument has the type it stands for, or it is generic and what
becomes of it is an ancestor of the argument, the only one of its definition if
that is an interface. A parameter type that is just a type parameter has the
shape of every type, so for it an ancestor is not enough. -/
inductive Fits (c : Catalog) (typeParams : List TypeId) (s : TypeId → TypeId)
    (param argument : TypeId) : Prop
  | bare (hmem : param ∈ typeParams) (heq : argument = s param)
  | generic {definition ancestor : TypeId} (hdef : c.definition? param = some definition)
      (htree : c.tree ancestor = (c.tree param).replace (c.assigning typeParams s))
      (hancestor : c.Ancestor argument ancestor)
      (hunique : c.kind? definition = some .interfaceType → ∀ other, c.Ancestor argument other →
        c.definition? other = some definition → other = ancestor)

/-- A method with a parameter of the type `U`, called with a `Derived<string>`: the ancestor
`Box<string>` is what becomes of `U` if `U` stands for it, but the argument does not fit, and
`U` is inferred to be `Derived<string>` itself. -/
theorem infer_bare_boxes :
    (boxesFinished.Ancestor ⟨6⟩ ⟨7⟩ ∧ boxesFinished.tree ⟨7⟩ =
      (boxesFinished.tree ⟨3⟩).replace (boxesFinished.assigning [⟨3⟩] fun _ => ⟨7⟩)) ∧
    ¬ boxesFinished.Fits [⟨3⟩] (fun _ => ⟨7⟩) ⟨3⟩ ⟨6⟩ ∧
    ∀ options, boxesFinished.infer options ⟨"keep", [⟨3⟩], [⟨3⟩]⟩ [⟨6⟩] =
      .ok ⟨"keep", [(⟨3⟩, ⟨6⟩)]⟩ := by
  have hleaf : boxesFinished.tree ⟨3⟩ = .leaf ⟨3⟩ := tree_of_definition?_none rfl
  have hplaces : boxesFinished.parameterOccurrences [⟨3⟩] ⟨3⟩ = [⟨0, ⟨⟨3⟩, []⟩⟩] := by
    simp [parameterOccurrences, occurrences, pushArguments]
  have hvalues : boxesFinished.evaluateAll [⟨6⟩] [⟨0, ⟨⟨3⟩, []⟩⟩] = .ok [⟨6⟩] := rfl
  refine ⟨⟨.inl (.single rfl), by simp [hleaf, assigning]⟩, fun hfits => ?_, fun options => ?_⟩
  · cases hfits with
    | bare _ heq => cases heq
    | generic hdef => cases hdef
  · simp only [infer, inferEach, inferParameter, hplaces, hvalues, distinct_eq_eraseDups]
    rfl

/-! ## 2. One occurrence -/

section

variable {c : Catalog} {h : Hierarchy} {typeParams params arguments : List TypeId}
  {s : TypeId → TypeId} {param argument p : TypeId} {path : List Nat}

/-- The shape of a parameter type picks what becomes of it. -/
theorem WellFormed.ancestor?_of_fits (hc : c.WellFormed) (hfinish : c.finish = .ok h)
    {definition ancestor : TypeId} (hdef : h.catalog.definition? param = some definition)
    (htree : h.catalog.tree ancestor =
      (h.catalog.tree param).replace (h.catalog.assigning typeParams s))
    (hancestor : h.catalog.Ancestor argument ancestor)
    (hunique : h.catalog.kind? definition = some .interfaceType →
      ∀ other, h.catalog.Ancestor argument other →
        h.catalog.definition? other = some definition → other = ancestor) :
    h.catalog.ancestor? argument definition = .ok (some ancestor) := by
  have hfinished := hc.of_finish hfinish
  obtain ⟨ps, hform, -⟩ := hfinished.form?_of_definition? hdef
  rw [hfinished.tree_of_definition? hdef, replace_apply] at htree
  obtain ⟨hdef', -⟩ := hfinished.definition?_of_tree htree
  refine hc.ancestor?_of_unique hfinish (isDefinition_iff.mpr ⟨ps, hform⟩) hancestor hdef' ?_
  obtain ⟨node, hnode, -⟩ := form?_eq_some.mp hform
  have hkind : h.catalog.kind? definition = some node.kind := by rw [kind?, hnode]; rfl
  cases hcase : node.kind with
  | interfaceType => exact hunique (by rw [hkind, hcase])
  | classType =>
    intro other hother hdother
    exact hc.ancestor_unique hfinish (by rw [hkind, hcase]) hancestor hother hdef' hdother

/-- An occurrence of a type parameter is evaluated to the type it stands for. -/
theorem WellFormed.evaluate_of_fits (hc : c.WellFormed) (hfinish : c.finish = .ok h)
    (hparam : h.catalog.isParameter p = true) (hp : p ∈ typeParams)
    (hfits : h.catalog.Fits typeParams s param argument)
    (hbare : param ∈ typeParams → h.catalog.isParameter param = true)
    (hpath : path ∈ h.catalog.pathsTo p param) :
    h.catalog.evaluate ⟨param, path⟩ argument = .ok (s p) := by
  have hfinished := hc.of_finish hfinish
  unfold evaluate
  cases hfits with
  | bare hmem heq =>
    have hdef := definition?_of_isParameter (hbare hmem)
    obtain ⟨rfl, rfl⟩ := (pathsTo_of_args_nil (args_of_definition?_none hdef)).mp hpath
    simp only [unbound, hdef, Option.getD_none, ancestor?, hbare hmem, if_true, descend, heq]
  | generic hdef htree hancestor hunique =>
    simp only [unbound, hdef, Option.getD_some,
      hc.ancestor?_of_fits hfinish hdef htree hancestor hunique]
    refine hfinished.descend_replaced (definition?_of_isParameter hparam) ?_ htree hpath
    rw [assigning, if_pos hp]

/-! ## 3. All occurrences -/

theorem evaluateAll_of_forall {id : TypeId} {os : List ParameterOccurrence}
    (hall : ∀ o ∈ os, c.evaluateAt? o arguments = some (.ok id)) :
    c.evaluateAll arguments os = .ok (List.replicate os.length id) := by
  induction os with
  | nil => rfl
  | cons o rest ih =>
    rw [evaluateAll, hall o List.mem_cons_self, ih fun x hx => hall x (List.mem_cons_of_mem _ hx)]
    rfl

/-- A type parameter gets the type that all of its occurrences are evaluated to. -/
theorem inferParameter_of_forall {id : TypeId} (options : InferenceOptions)
    (hne : c.parameterOccurrences params p ≠ [])
    (hall : ∀ o ∈ c.parameterOccurrences params p, c.evaluateAt? o arguments = some (.ok id)) :
    c.inferParameter options params arguments p = .ok id := by
  have hmem : id ∈ List.replicate (c.parameterOccurrences params p).length id :=
    List.mem_replicate.mpr ⟨fun hnil => hne (List.length_eq_zero_iff.mp hnil), rfl⟩
  rw [inferParameter, evaluateAll_of_forall hall]
  simp only
  rw [distinct_eq_eraseDups,
    eraseDups_eq_singleton hmem fun x hx => (List.mem_replicate.mp hx).2]
  rfl

theorem inferEach_of_forall {options : InferenceOptions} {position : Nat}
    (hall : ∀ p ∈ typeParams, c.inferParameter options params arguments p = .ok (s p)) :
    c.inferEach options params arguments position typeParams =
      (typeParams.map fun p => (p, s p), []) := by
  induction typeParams generalizing position with
  | nil => rfl
  | cons p rest ih =>
    rw [inferEach, ih fun q hq => hall q (List.mem_cons_of_mem _ hq), hall p List.mem_cons_self]
    rfl

/-! ## 4. Calls -/

/-- A type parameter that occurs gets the type it stands for. -/
theorem WellFormed.inferParameter_of_fits (hc : c.WellFormed) (hfinish : c.finish = .ok h)
    (options : InferenceOptions) (hparams : ∀ q ∈ typeParams, h.catalog.isParameter q = true)
    (hp : p ∈ typeParams) (hoccurs : ∃ param ∈ params, h.catalog.Mentions param p)
    (hcount : arguments.length = params.length)
    (hfits : ∀ (i : Nat) (param argument : TypeId), params[i]? = some param →
      arguments[i]? = some argument →
      (∃ q ∈ typeParams, h.catalog.Mentions param q) →
      h.catalog.Fits typeParams s param argument) :
    h.catalog.inferParameter options params arguments p = .ok (s p) := by
  have hfinished := hc.of_finish hfinish
  refine inferParameter_of_forall options ?_ fun o ho => ?_
  · obtain ⟨param, hmem, hmentions⟩ := hoccurs
    obtain ⟨i, hi⟩ := List.getElem?_of_mem hmem
    obtain ⟨path, hpath⟩ := hfinished.exists_path_iff.mpr hmentions
    exact List.ne_nil_of_mem
      (hfinished.mem_parameterOccurrences.mpr ⟨i, param, path, hi, hpath, rfl⟩)
  · obtain ⟨i, param, path, hi, hpath, rfl⟩ := hfinished.mem_parameterOccurrences.mp ho
    obtain ⟨argument, hargument⟩ : ∃ argument, arguments[i]? = some argument := by
      have hlt := (List.getElem?_eq_some_iff.mp hi).1
      exact ⟨_, List.getElem?_eq_getElem (hcount ▸ hlt)⟩
    have hmentions := hfinished.exists_path_iff.mp ⟨path, hpath⟩
    rw [evaluateAt?, hargument, Option.map_some]
    exact congrArg some (hc.evaluate_of_fits hfinish (hparams p hp) hp
      (hfits i param argument hi hargument ⟨p, hp, hmentions⟩) (hparams param) hpath)

end

/-- Inference is complete. Let the type parameters of a generic method be type
parameters of a finished catalogue, let each of them occur in a parameter type,
and let types `s` for them be given under which the arguments fit all parameter
types that mention one of them. Then these types are inferred, in the order of
the type parameters, with either way to reconcile candidates. -/
theorem infer_complete {c : Catalog} {h : Hierarchy} (hc : c.Reachable)
    (hfinish : c.finish = .ok h) (options : InferenceOptions) (method : Method)
    (arguments : List TypeId) (s : TypeId → TypeId) (hgeneric : method.isGeneric = true)
    (hparams : ∀ p ∈ method.typeParams, h.catalog.isParameter p = true)
    (hoccurs : ∀ p ∈ method.typeParams, ∃ param ∈ method.params, h.catalog.Mentions param p)
    (hcount : arguments.length = method.params.length)
    (hfits : ∀ (i : Nat) (param argument : TypeId), method.params[i]? = some param →
      arguments[i]? = some argument →
      (∃ p ∈ method.typeParams, h.catalog.Mentions param p) →
      h.catalog.Fits method.typeParams s param argument) :
    h.catalog.infer options method arguments =
      .ok ⟨method.name, method.typeParams.map fun p => (p, s p)⟩ := by
  rw [infer, hgeneric, Bool.not_true, if_neg Bool.false_ne_true,
    if_neg (not_not_intro hcount.symm), inferEach_of_forall fun p hp =>
      hc.wellFormed.inferParameter_of_fits hfinish options hparams hp (hoccurs p hp) hcount hfits]

/-- A method with a parameter of the type `Box<U>`, called with a
`Derived<string>`: the ancestor `Box<string>` gives `string` for `U`. -/
theorem infer_complete_boxes :
    (boxesFinished.Mentions ⟨4⟩ ⟨3⟩ ∧ boxesFinished.Fits [⟨3⟩] (fun _ => ⟨5⟩) ⟨4⟩ ⟨6⟩) ∧
      boxesFinished.infer ⟨.exact⟩ ⟨"unbox", [⟨3⟩], [⟨4⟩]⟩ [⟨6⟩] =
        .ok ⟨"unbox", [(⟨3⟩, ⟨5⟩)]⟩ ∧
      boxesFinished.infer ⟨.nearestCommonBase⟩ ⟨"unbox", [⟨3⟩], [⟨4⟩]⟩ [⟨6⟩] =
        .ok ⟨"unbox", [(⟨3⟩, ⟨5⟩)]⟩ := by
  have hfinished : boxesFinished.WellFormed := reachable_boxes.wellFormed.of_finish finish_boxes
  have hmentions : boxesFinished.Mentions ⟨4⟩ ⟨3⟩ := .single (by decide)
  have htree : boxesFinished.tree ⟨7⟩ =
      (boxesFinished.tree ⟨4⟩).replace (boxesFinished.assigning [⟨3⟩] fun _ => ⟨5⟩) := by
    have hstring : boxesFinished.form? ⟨7⟩ = some (.application ⟨0⟩ [⟨5⟩]) := rfl
    have hopen : boxesFinished.form? ⟨4⟩ = some (.application ⟨0⟩ [⟨3⟩]) := rfl
    have hleaf : boxesFinished.tree ⟨3⟩ = .leaf ⟨3⟩ := tree_of_definition?_none rfl
    rw [hfinished.tree_of_application hstring, hfinished.tree_of_application hopen]
    simp [assigning, hleaf]
  have hfits : boxesFinished.Fits [⟨3⟩] (fun _ => ⟨5⟩) ⟨4⟩ ⟨6⟩ :=
    .generic rfl htree (.inl (.single rfl)) nofun
  have hall : ∀ (i : Nat) (param argument : TypeId), [(⟨4⟩ : TypeId)][i]? = some param →
      [(⟨6⟩ : TypeId)][i]? = some argument →
      (∃ p ∈ [(⟨3⟩ : TypeId)], boxesFinished.Mentions param p) →
      boxesFinished.Fits [⟨3⟩] (fun _ => ⟨5⟩) param argument := by
    intro i param argument hparam hargument _
    cases i with
    | zero =>
      cases hparam
      cases hargument
      exact hfits
    | succ i => cases hparam
  have hinfer : ∀ options, boxesFinished.infer options ⟨"unbox", [⟨3⟩], [⟨4⟩]⟩ [⟨6⟩] =
      .ok ⟨"unbox", [(⟨3⟩, ⟨5⟩)]⟩ := fun options =>
    infer_complete reachable_boxes finish_boxes options ⟨"unbox", [⟨3⟩], [⟨4⟩]⟩ [⟨6⟩]
      (fun _ => ⟨5⟩) rfl (by decide) (by simpa using hmentions) rfl hall
  exact ⟨⟨hmentions, hfits⟩, hinfer _, hinfer _⟩

end Generics.Catalog

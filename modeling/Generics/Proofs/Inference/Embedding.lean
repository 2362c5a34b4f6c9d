/-
Generics.Proofs.Inference.Embedding — an embedded catalogue infers the same.

Every step of inference reads a catalogue through questions that an embedding
answers under other numbers: bases, interfaces, arguments, definitions. So each
step has the renamed result in the larger catalogue, and failures, in which types
appear as text, are the same failures (`Embeds.infer`). Chains of bases must not
be cut, which they are not in finished catalogues (`Uncut`), and texts are compared
for known types.
-/
import Generics.Proofs.Catalog.Embedding
import Generics.Proofs.Inference.Hereditary

namespace Generics

/-! ## 1. Renamed results -/

namespace LookupError

/-- A failed look-up with other numbers. -/
def rename (φ : TypeId → TypeId) : LookupError → LookupError
  | noMatchingAncestor concrete shape => noMatchingAncestor (φ concrete) (φ shape)
  | ambiguousAncestor concrete shape candidates =>
    ambiguousAncestor (φ concrete) (φ shape) (candidates.map φ)
  | notGeneric type steps => notGeneric (φ type) steps
  | noSuchArgument type index => noSuchArgument (φ type) index

/-- The types that a failed look-up names. -/
def types : LookupError → List TypeId
  | noMatchingAncestor concrete shape => [concrete, shape]
  | ambiguousAncestor concrete shape candidates => concrete :: shape :: candidates
  | notGeneric type _ => [type]
  | noSuchArgument type _ => [type]

/-- The result of a look-up with other numbers. -/
def renameResult {α : Type} (φ : TypeId → TypeId) (f : α → α) :
    Except LookupError α → Except LookupError α
  | .ok a => .ok (f a)
  | .error e => .error (e.rename φ)

end LookupError

/-- An occurrence with other numbers. -/
def Occurrence.rename (φ : TypeId → TypeId) (o : Occurrence) : Occurrence :=
  ⟨φ o.root, o.indices⟩

/-- An occurrence in a parameter with other numbers. -/
def ParameterOccurrence.rename (φ : TypeId → TypeId) (o : ParameterOccurrence) :
    ParameterOccurrence :=
  ⟨o.parameter, o.occurrence.rename φ⟩

/-- A method with other numbers. -/
def Method.rename (φ : TypeId → TypeId) (m : Method) : Method :=
  ⟨m.name, m.typeParams.map φ, m.params.map φ⟩

/-- Only the types that a method mentions matter. -/
theorem Method.rename_congr {φ ψ : TypeId → TypeId} {m : Method}
    (h : ∀ x ∈ m.typeParams ++ m.params, φ x = ψ x) : m.rename φ = m.rename ψ := by
  rw [rename, rename, List.map_congr_left fun x hx => h x (List.mem_append_left _ hx),
    List.map_congr_left fun x hx => h x (List.mem_append_right _ hx)]

/-- Inferred type arguments with other numbers. -/
def Inference.rename (φ : TypeId → TypeId) (i : Inference) : Inference :=
  ⟨i.method, i.bindings.map fun b => (φ b.1, φ b.2)⟩

namespace Catalog.Embeds

open LookupError

variable {φ : TypeId → TypeId} {c c' : Catalog}

/-! ## 2. Ancestors -/

theorem basesWithin (h : Embeds φ c c') (steps : Nat) (id : TypeId) :
    c'.basesWithin steps (φ id) = (c.basesWithin steps id).map φ := by
  induction steps generalizing id with
  | zero => rfl
  | succ steps ih =>
    rw [Catalog.basesWithin, Catalog.basesWithin, h.base?]
    cases c.base? id with
    | none => rfl
    | some b => simp [ih]

theorem selfAndBases (h : Embeds φ c c') (hc : c.Uncut) (hc' : c'.Uncut) (id : TypeId) :
    c'.selfAndBases (φ id) = (c.selfAndBases id).map φ := by
  have hbases : c'.bases (φ id) = (c.bases id).map φ := by
    rw [← hc' (φ id) c.size, h.basesWithin, Nat.add_comm, hc id]
  rw [Catalog.selfAndBases, Catalog.selfAndBases, hbases, List.map_cons]

theorem hasShape (h : Embeds φ c c') (shape id : TypeId) :
    c'.hasShape (φ shape) (φ id) = c.hasShape shape id := by
  have hdef : (c'.definition? (φ id) == some (φ shape)) = (c.definition? id == some shape) := by
    rw [h.definition?, ← Option.map_some, Bool.eq_iff_iff, beq_iff_eq, beq_iff_eq]
    exact (Option.map_injective h.injective).eq_iff
  have hid : (φ id == φ shape) = (id == shape) := by
    rw [Bool.eq_iff_iff, beq_iff_eq, beq_iff_eq]
    exact h.injective.eq_iff
  simp only [Catalog.hasShape, h.isDefinition, hdef, hid]

theorem ancestorsOfShape (h : Embeds φ c c') (hc : c.Uncut) (hc' : c'.Uncut)
    (concrete shape : TypeId) :
    c'.ancestorsOfShape (φ concrete) (φ shape) = (c.ancestorsOfShape concrete shape).map φ := by
  have hshape : c'.hasShape (φ shape) ∘ φ = c.hasShape shape := funext fun id => h.hasShape shape id
  rw [Catalog.ancestorsOfShape, Catalog.ancestorsOfShape, h.selfAndBases hc hc', h.interfaces,
    ← List.map_append, List.filter_map, hshape, eraseDups_map h.injective]

theorem ancestor? (h : Embeds φ c c') (hc : c.Uncut) (hc' : c'.Uncut) (concrete shape : TypeId) :
    c'.ancestor? (φ concrete) (φ shape) =
      renameResult φ (Option.map φ) (c.ancestor? concrete shape) := by
  rw [Catalog.ancestor?, Catalog.ancestor?, h.isParameter, h.ancestorsOfShape hc hc']
  split
  · rfl
  · rcases c.ancestorsOfShape concrete shape with _ | ⟨a, _ | ⟨b, rest⟩⟩ <;> rfl

theorem nearestCommonBase? (h : Embeds φ c c') (hc : c.Uncut) (hc' : c'.Uncut)
    (ids : List TypeId) :
    c'.nearestCommonBase? (ids.map φ) = (c.nearestCommonBase? ids).map φ := by
  cases ids with
  | nil => rfl
  | cons first rest =>
    have hall : (fun id => (rest.map φ).all fun other => (c'.selfAndBases other).contains id) ∘ φ =
        fun id => rest.all fun other => (c.selfAndBases other).contains id := by
      funext id
      simp only [Function.comp_apply, List.all_map]
      congr 1
      funext other
      rw [Function.comp_apply, h.selfAndBases hc hc', Bool.eq_iff_iff, List.contains_iff_mem,
        List.contains_iff_mem, List.mem_map_of_injective h.injective]
    rw [List.map_cons, nearestCommonBase?_cons, nearestCommonBase?_cons, h.selfAndBases hc hc',
      List.find?_map, hall]

/-! ## 3. Occurrences -/

theorem pathsTo (h : Embeds φ c c') (target id : TypeId) :
    c'.pathsTo (φ target) (φ id) = c.pathsTo target id := by
  induction id using h.source.args_induction with
  | step id ih =>
    rw [h.source.pathsTo_eq, h.target.pathsTo_eq, h.args]
    by_cases heq : id = target
    · simp [heq]
    have hne : φ id ≠ φ target := fun himage => heq (h.injective himage)
    rw [if_neg heq, if_neg hne, List.zipIdx_map, List.flatMap_map, List.flatMap_def,
      List.flatMap_def]
    refine congrArg List.flatten (List.map_congr_left fun x hx => ?_)
    have hmem := List.mem_of_getElem? (List.mem_zipIdx_iff_getElem?.mp hx)
    exact congrArg _ (ih x.1 hmem)

theorem parameterOccurrences (h : Embeds φ c c') (params : List TypeId) (target : TypeId) :
    c'.parameterOccurrences (params.map φ) (φ target) =
      (c.parameterOccurrences params target).map (ParameterOccurrence.rename φ) := by
  simp only [h.source.parameterOccurrences_eq, h.target.parameterOccurrences_eq, List.zipIdx_map,
    List.flatMap_map, List.map_flatMap, List.map_map]
  congr 1
  funext x
  simp only [Prod.map, id_eq, h.pathsTo]
  rfl

theorem descend (h : Embeds φ c c') (current : TypeId) (steps : Nat) (path : List Nat) :
    c'.descend (φ current) steps path = renameResult φ φ (c.descend current steps path) := by
  induction path generalizing current steps with
  | nil => rfl
  | cons index rest ih =>
    rw [Catalog.descend, Catalog.descend, h.args]
    cases hargs : c.args current with
    | nil => rfl
    | cons a as =>
      simp only [List.map_cons]
      rw [← List.map_cons, List.getElem?_map]
      cases (a :: as)[index]? with
      | none => rfl
      | some next => exact ih next (steps + 1)

theorem evaluate (h : Embeds φ c c') (hc : c.Uncut) (hc' : c'.Uncut) (o : Occurrence)
    (concrete : TypeId) :
    c'.evaluate (o.rename φ) (φ concrete) = renameResult φ φ (c.evaluate o concrete) := by
  simp only [Catalog.evaluate, Occurrence.rename, h.unbound, h.ancestor? hc hc']
  rcases c.ancestor? concrete (c.unbound o.root) with e | _ | ancestor
  · rfl
  · rfl
  · exact h.descend ancestor 0 o.indices

theorem evaluateAll (h : Embeds φ c c') (hc : c.Uncut) (hc' : c'.Uncut) (arguments : List TypeId)
    (os : List ParameterOccurrence) :
    c'.evaluateAll (arguments.map φ) (os.map (ParameterOccurrence.rename φ)) =
      renameResult φ (List.map φ) (c.evaluateAll arguments os) := by
  induction os with
  | nil => rfl
  | cons o rest ih =>
    have hat : c'.evaluateAt? (o.rename φ) (arguments.map φ) =
        (c.evaluateAt? o arguments).map (renameResult φ φ) := by
      simp only [Catalog.evaluateAt?, ParameterOccurrence.rename, List.getElem?_map, Option.map_map,
        Function.comp_def, h.evaluate hc hc']
    rw [List.map_cons, Catalog.evaluateAll, Catalog.evaluateAll, hat, ih]
    rcases c.evaluateAt? o arguments with _ | e | id
    · rfl
    · rfl
    · cases c.evaluateAll arguments rest <;> rfl

end Catalog.Embeds

/-! ## 4. Known types lead to known types -/

namespace Catalog

/-- A failed look-up names known types only. -/
def NamesKnown {α : Type} (c : Catalog) (result : Except LookupError α) : Prop :=
  ∀ ⦃e⦄, result = .error e → ∀ x ∈ e.types, c.knows x = true

section

variable {c : Catalog}

theorem WellFormed.hereditary_knows (hc : c.WellFormed) :
    c.Hereditary fun id => c.knows id = true where
  inherits _ hlink := (hc.knows_of_inherits hlink).1
  arg _ ha := hc.knows_of_mem_args ha

theorem WellFormed.namesKnown_descend (hc : c.WellFormed) {start : TypeId}
    (hstart : c.knows start = true) (path : List Nat) :
    c.NamesKnown (c.descend start 0 path) := by
  intro e herror x hx
  obtain ⟨before, index, after, type, -, hleads, hcase⟩ := descend_eq_error_iff.mp herror
  have htype := hc.hereditary_knows.of_leads hstart hleads
  rcases hcase with ⟨-, rfl⟩ | ⟨-, -, rfl⟩ <;>
    · rw [List.mem_singleton.mp hx]
      exact htype

theorem WellFormed.namesKnown_ancestor? (hc : c.WellFormed) {concrete shape : TypeId}
    (hconcrete : c.knows concrete = true) (hshape : c.knows shape = true) :
    c.NamesKnown (c.ancestor? concrete shape) := by
  intro e herror x hx
  rw [ancestor?] at herror
  split at herror
  · cases herror
  · split at herror
    · cases herror
    · cases herror
    · cases herror
      rcases List.mem_cons.mp hx with rfl | hx
      · exact hconcrete
      · rcases List.mem_cons.mp hx with rfl | hx
        · exact hshape
        · exact hc.hereditary_knows.of_mem_ancestorsOfShape hconcrete hx

theorem WellFormed.namesKnown_evaluate (hc : c.WellFormed) {o : Occurrence} {concrete : TypeId}
    (hroot : c.knows o.root = true) (hconcrete : c.knows concrete = true) :
    c.NamesKnown (c.evaluate o concrete) := by
  have hshape : c.knows (c.unbound o.root) = true := hc.knows_unbound hroot
  intro e herror x hx
  simp only [evaluate] at herror
  rcases hancestor : c.ancestor? concrete (c.unbound o.root) with e' | _ | ancestor
  · simp only [hancestor, Except.error.injEq] at herror
    exact hc.namesKnown_ancestor? hconcrete hshape hancestor x (herror ▸ hx)
  · simp only [hancestor, Except.error.injEq] at herror
    subst herror
    rcases List.mem_cons.mp hx with rfl | hx
    · exact hconcrete
    · rw [List.mem_singleton.mp hx]
      exact hshape
  · simp only [hancestor] at herror
    exact hc.namesKnown_descend (hc.hereditary_knows.of_ancestor? hconcrete hancestor) _ herror x hx

theorem WellFormed.namesKnown_evaluateAll (hc : c.WellFormed) {os : List ParameterOccurrence}
    {arguments : List TypeId} (hos : ∀ o ∈ os, c.knows o.occurrence.root = true)
    (harguments : ∀ a ∈ arguments, c.knows a = true) :
    c.NamesKnown (c.evaluateAll arguments os) := by
  induction os with
  | nil =>
    intro e herror
    cases herror
  | cons o rest ih =>
    obtain ⟨ho, hrest⟩ := List.forall_mem_cons.mp hos
    intro e herror x hx
    rw [evaluateAll, evaluateAt?] at herror
    cases harg : arguments[o.parameter]? with
    | none =>
      simp only [harg, Option.map_none] at herror
      exact ih hrest herror x hx
    | some argument =>
      have hargument := harguments argument (List.mem_of_getElem? harg)
      simp only [harg, Option.map_some] at herror
      cases hvalue : c.evaluate o.occurrence argument with
      | error e' =>
        simp only [hvalue, Except.error.injEq] at herror
        exact hc.namesKnown_evaluate ho hargument hvalue x (herror ▸ hx)
      | ok id =>
        cases hall : c.evaluateAll arguments rest with
        | error e' =>
          simp only [hvalue, hall, Except.map, Except.error.injEq] at herror
          exact ih hrest hall x (herror ▸ hx)
        | ok ids => simp [hvalue, hall, Except.map] at herror

theorem knows_root_of_mem (hc : c.WellFormed) {params : List TypeId} {p : TypeId}
    (hparams : ∀ x ∈ params, c.knows x = true) {o : ParameterOccurrence}
    (ho : o ∈ c.parameterOccurrences params p) : c.knows o.occurrence.root = true := by
  obtain ⟨i, param, path, hparam, -, rfl⟩ := hc.mem_parameterOccurrences.mp ho
  exact hparams param (List.mem_of_getElem? hparam)

end

end Catalog

/-! ## 5. Calls -/

namespace Catalog.Embeds

variable {φ : TypeId → TypeId} {c c' : Catalog} {options : InferenceOptions}
  {params arguments : List TypeId}

/-- A failed look-up reads the same. -/
theorem ofLookupError (h : Embeds φ c c') {e : LookupError}
    (htypes : ∀ x ∈ e.types, c.knows x = true) :
    BindingFault.ofLookupError c' (e.rename φ) = BindingFault.ofLookupError c e := by
  cases e with
  | noMatchingAncestor concrete shape =>
    have hconcrete := htypes concrete (by simp [LookupError.types])
    have hshape := htypes shape (by simp [LookupError.types])
    simp [LookupError.rename, BindingFault.ofLookupError, h.display hconcrete, h.display hshape]
  | ambiguousAncestor concrete shape candidates =>
    have hconcrete := htypes concrete (by simp [LookupError.types])
    have hshape := htypes shape (by simp [LookupError.types])
    have hcandidates : ∀ x ∈ candidates, c.knows x = true := fun x hx =>
      htypes x (by simp [LookupError.types, hx])
    simp [LookupError.rename, BindingFault.ofLookupError, h.display hconcrete, h.display hshape,
      h.displayAll hcandidates]
  | notGeneric type steps =>
    have htype := htypes type (by simp [LookupError.types])
    simp [LookupError.rename, BindingFault.ofLookupError, h.display htype]
  | noSuchArgument type index =>
    have htype := htypes type (by simp [LookupError.types])
    simp [LookupError.rename, BindingFault.ofLookupError, h.display htype]

theorem reconcile (h : Embeds φ c c') (hc : c.Uncut) (hc' : c'.Uncut) {ids : List TypeId}
    (hids : ∀ id ∈ ids, c.knows id = true) :
    c'.reconcile options (ids.map φ) = (c.reconcile options ids).map φ := by
  rcases ids with _ | ⟨a, _ | ⟨b, rest⟩⟩
  · rfl
  · rfl
  · have hdisplay := h.displayAll hids
    have hcommon := h.nearestCommonBase? hc hc' (a :: b :: rest)
    simp only [List.map_cons] at hdisplay hcommon
    simp only [Catalog.reconcile, List.map_cons, hdisplay, hcommon]
    cases options.reconciliation with
    | exact => rfl
    | nearestCommonBase => cases c.nearestCommonBase? (a :: b :: rest) <;> rfl

/-- The type argument of one type parameter. -/
theorem inferParameter (h : Embeds φ c c') (hc : c.Uncut) (hc' : c'.Uncut)
    (hparams : ∀ x ∈ params, c.knows x = true) (harguments : ∀ a ∈ arguments, c.knows a = true)
    (p : TypeId) :
    c'.inferParameter options (params.map φ) (arguments.map φ) (φ p) =
      (c.inferParameter options params arguments p).map φ := by
  have hnames := h.source.namesKnown_evaluateAll
    (fun o ho => knows_root_of_mem h.source (p := p) hparams ho) harguments
  rw [Catalog.inferParameter, Catalog.inferParameter, h.parameterOccurrences,
    h.evaluateAll hc hc']
  cases hall : c.evaluateAll arguments (c.parameterOccurrences params p) with
  | error e => exact congrArg Except.error (h.ofLookupError (hnames hall))
  | ok ids =>
    have hids : ∀ id ∈ ids.eraseDups, c.knows id = true := fun id hid =>
      h.source.hereditary_knows.of_evaluateAll harguments hall id (List.mem_eraseDups.mp hid)
    simp only [LookupError.renameResult, distinct_eq_eraseDups, eraseDups_map h.injective]
    exact h.reconcile hc hc' hids

theorem inferEach (h : Embeds φ c c') (hc : c.Uncut) (hc' : c'.Uncut)
    (hparams : ∀ x ∈ params, c.knows x = true) (harguments : ∀ a ∈ arguments, c.knows a = true)
    (position : Nat) (typeParams : List TypeId) :
    c'.inferEach options (params.map φ) (arguments.map φ) position (typeParams.map φ) =
      ((c.inferEach options params arguments position typeParams).1.map fun b => (φ b.1, φ b.2),
        (c.inferEach options params arguments position typeParams).2) := by
  induction typeParams generalizing position with
  | nil => rfl
  | cons p rest ih =>
    simp only [List.map_cons, Catalog.inferEach, ih, h.inferParameter hc hc' hparams harguments,
      h.name]
    cases c.inferParameter options params arguments p <;> rfl

/-- A call has the same outcome in the larger catalogue: the renamed type arguments,
or the same failures. -/
theorem infer (h : Embeds φ c c') (hc : c.Uncut) (hc' : c'.Uncut) {m : Method}
    (hparams : ∀ x ∈ m.params, c.knows x = true) (harguments : ∀ a ∈ arguments, c.knows a = true) :
    c'.infer options (m.rename φ) (arguments.map φ) =
      (c.infer options m arguments).map (Inference.rename φ) := by
  have hgeneric : (m.rename φ).isGeneric = m.isGeneric := by
    simp [Method.isGeneric, Method.rename]
  rw [Catalog.infer, Catalog.infer, hgeneric]
  simp only [Method.rename, List.length_map, h.inferEach hc hc' hparams harguments,
    h.displayAll harguments]
  split
  · rfl
  · split
    · rfl
    · rcases c.inferEach options m.params arguments 0 m.typeParams with ⟨bindings, _ | ⟨f, fs⟩⟩ <;>
        rfl

end Catalog.Embeds

/-! ## 6. Bound types are known -/

namespace Catalog

/-- The type arguments of a call with known types are known. -/
theorem WellFormed.knows_of_mem_bindings {c : Catalog} (hc : c.WellFormed)
    {options : InferenceOptions} {m : Method} {arguments : List TypeId} {i : Inference}
    {b : TypeId × TypeId} (htypeParams : ∀ x ∈ m.typeParams, c.knows x = true)
    (harguments : ∀ a ∈ arguments, c.knows a = true) (hok : c.infer options m arguments = .ok i)
    (hb : b ∈ i.bindings) : c.knows b.1 = true ∧ c.knows b.2 = true := by
  obtain ⟨hmem, hknown⟩ := hc.hereditary_knows.of_mem_bindings harguments hok hb
  exact ⟨htypeParams b.1 hmem, hknown⟩

/-- Type parameters and the types bound to them, written out. -/
def displayBindings (c : Catalog) (i : Inference) : List (String × String) :=
  i.bindings.map fun b => (c.display b.1, c.display b.2)

theorem Embeds.displayBindings {φ : TypeId → TypeId} {c c' : Catalog} (h : Embeds φ c c')
    {i : Inference} (hknown : ∀ b ∈ i.bindings, c.knows b.1 = true ∧ c.knows b.2 = true) :
    c'.displayBindings (i.rename φ) = c.displayBindings i := by
  rw [Catalog.displayBindings, Catalog.displayBindings, Inference.rename, List.map_map]
  refine List.map_congr_left fun b hb => ?_
  rw [Function.comp_apply, h.display (hknown b hb).1, h.display (hknown b hb).2]

end Catalog

end Generics

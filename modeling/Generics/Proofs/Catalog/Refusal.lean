/-
Generics.Proofs.Catalog.Refusal — a refused operation has done nothing.

Applying a definition is a row of tests with two ways to succeed in the middle of it: the own
parameters give the definition itself, and an application that is there is found. Only
after both come the limits, so a full catalogue still answers for what it has. `Applicable` says
this without the order of the tests, and without the index and the depths that they are
made on: it looks at the types of the catalogue, written out.

Whatever is refused, here or when links are declared, leaves the catalogue as it was
(`refusal_changes_nothing`).
-/
import Generics.Proofs.Catalog.Applications
import Generics.Proofs.Catalog.Substitution

namespace Generics.Catalog

/-! ## 1. What can be applied -/

section

variable {c c' : Catalog} {id definition : TypeId} {args : List TypeId}

/-- One more application fits into the catalogue: it nests no deeper than is allowed, and there
are fewer than are allowed. -/
structure HasRoomFor (c : Catalog) (definition : TypeId) (args : List TypeId) : Prop where
  nesting : c.treeDepth (.apply definition (args.map c.tree)) ≤ Limits.nesting
  number : c.applicationIds.length < Limits.applications

/-- A definition can be applied to arguments: it is an open definition with as many parameters,
all arguments are known, and the application is the definition itself, is there already
or has room. -/
structure Applicable (c : Catalog) (definition : TypeId) (args : List TypeId) : Prop where
  isDefinition : c.isDefinition definition = true
  arity : args.length = (c.params definition).length
  known : ∀ a ∈ args, c.knows a = true
  possible : args = c.params definition ∨
    (∃ id, c.form? id = some (.application definition args)) ∨ c.HasRoomFor definition args

theorem Applicable.form? (h : c.Applicable definition args) :
    c.form? definition = some (.definition (c.params definition)) := by
  obtain ⟨params, hform⟩ := isDefinition_iff.mp h.isDefinition
  rw [hform, params_of_definition hform]

/-- The limits as they are tested. -/
theorem WellFormed.hasRoomFor_iff (hc : c.WellFormed) {params : List TypeId}
    (hform : c.form? definition = some (.definition params)) (hown : args ≠ params) :
    c.HasRoomFor definition args ↔
      c.applicationDepth args ≤ Limits.nesting ∧ c.applications.size < Limits.applications := by
  rw [← hc.treeDepth_apply hform hown, ← hc.length_applicationIds]
  exact ⟨fun h => ⟨h.nesting, h.number⟩, fun h => ⟨h.1, h.2⟩⟩

/-- The tests are passed exactly if the definition can be applied. -/
theorem Instantiated.ok_iff {result : Except CatalogError TypeId × Catalog}
    (h : Instantiated c definition args result) (hc : c.WellFormed) :
    (∃ id, result.1 = .ok id) ↔ c.Applicable definition args := by
  constructor
  · intro hok
    obtain ⟨id, hok⟩ := hok
    cases h with
    | own hform =>
      have hparams := params_of_definition hform
      exact
        { isDefinition := isDefinition_iff.mpr ⟨args, hform⟩
          arity := by rw [hparams]
          known := fun a ha => knows_of_isParameter (hc.isParameter_of_mem_params hform ha)
          possible := .inl hparams.symm }
    | found hform hlength hown hargs hfound =>
      exact
        { isDefinition := isDefinition_iff.mpr ⟨_, hform⟩
          arity := by rw [params_of_definition hform, hlength]
          known := hargs
          possible := .inr (.inl ⟨_, hc.applications.mp hfound⟩) }
    | entered hnode hnform hlength hown hargs hnew hdepth hroom =>
      have hform := form?_eq_some.mpr ⟨_, hnode, hnform⟩
      exact
        { isDefinition := isDefinition_iff.mpr ⟨_, hform⟩
          arity := by rw [params_of_definition hform, hlength]
          known := hargs
          possible := .inr (.inr ((hc.hasRoomFor_iff hform hown).mpr ⟨hdepth, hroom⟩)) }
    | _ => cases hok
  · intro happ
    -- a refusal names the condition that is not met
    cases h with
    | unknown hunknown =>
      rw [knows_of_form? happ.form?] at hunknown
      cases hunknown
    | notDefinition _ hnot =>
      rw [happ.isDefinition] at hnot
      cases hnot
    | arity hform hlength =>
      have harity := happ.arity
      rw [params_of_definition hform] at harity
      exact absurd harity hlength
    | unknownArgument _ _ _ hfind =>
      have hunknown := List.find?_some hfind
      rw [happ.known _ (List.mem_of_find?_eq_some hfind)] at hunknown
      cases hunknown
    | tooDeep hform _ hown _ hnew hdeep =>
      rcases happ.possible with howns | ⟨id, hid⟩ | hroom
      · exact absurd (howns.trans (params_of_definition hform)) hown
      · cases hnew.symm.trans (hc.applications.mpr hid)
      · have hle := ((hc.hasRoomFor_iff hform hown).mp hroom).1
        omega
    | tooMany hform _ hown _ hnew _ hfull =>
      rcases happ.possible with howns | ⟨id, hid⟩ | hroom
      · exact absurd (howns.trans (params_of_definition hform)) hown
      · cases hnew.symm.trans (hc.applications.mpr hid)
      · have hlt := ((hc.hasRoomFor_iff hform hown).mp hroom).2
        omega
    | own => exact ⟨_, rfl⟩
    | found => exact ⟨_, rfl⟩
    | entered => exact ⟨_, rfl⟩

/-- An application that is there is found, whether there is room for another or not. -/
theorem WellFormed.instantiate_of_form? (hc : c.WellFormed)
    (hform : c.form? id = some (.application definition args)) :
    (Catalog.instantiate definition args).run.run c = (.ok id, c) := by
  obtain ⟨node, hnode, happ⟩ := hc.appliedTo hform
  obtain ⟨params, hparams⟩ := isDefinition_iff.mp happ.isDefinition
  obtain ⟨definitionNode, hdef, hdefForm⟩ := form?_eq_some.mp hparams
  have harity := happ.arity
  have hown := happ.not_own
  rw [params_of_definition hparams] at harity hown
  refine run_instantiate_of_indexed hdef hdefForm harity hown (fun a ha => ?_)
    (hc.applications.mpr hform)
  exact knows_of_lt (knows_of_node? hnode) (happ.args_older a ha)

/-! ## 2. Refusals -/

/-- Applying a definition changes the catalogue only if it succeeds. -/
theorem Instantiated.eq_of_error {e : CatalogError}
    (h : Instantiated c definition args (.error e, c')) : c' = c := by
  cases h <;> rfl

theorem setBase_eq_of_error {type base : TypeId} {e : CatalogError}
    (h : (setBase type base).run.run c = (.error e, c')) : c' = c := by
  rcases setBase_cases c type base with ⟨e', hrun⟩ | ⟨_, _, -, -, -, hrun⟩
  · exact (Prod.mk.inj (h.symm.trans hrun)).2
  · cases h.symm.trans hrun

theorem addInterface_eq_of_error {type implemented : TypeId} {e : CatalogError}
    (h : (addInterface type implemented).run.run c = (.error e, c')) : c' = c := by
  rcases addInterface_cases c type implemented with ⟨result, hrun⟩ | ⟨_, _, -, -, -, -, hrun⟩
  · exact (Prod.mk.inj (h.symm.trans hrun)).2
  · cases h.symm.trans hrun

end

/-- A call that is refused leaves the catalogue as it was, be it to apply a definition, to declare
a base or to declare an interface, for any numbers, given out or not. And a definition is
applied exactly if it can be: it is an open definition with as many parameters as there are
arguments, these are known, and the application is the definition's own, is there
already or fits both limits. One that is there already is answered as it is, also
when the catalogue is full. -/
theorem refusal_changes_nothing {c : Catalog} (hc : c.Reachable) :
    (∀ definition args e c',
      (instantiate definition args).run.run c = (.error e, c') → c' = c) ∧
    (∀ type base e c', (setBase type base).run.run c = (.error e, c') → c' = c) ∧
    (∀ type implemented e c',
      (addInterface type implemented).run.run c = (.error e, c') → c' = c) ∧
    (∀ definition args,
      (∃ id c', (instantiate definition args).run.run c = (.ok id, c')) ↔
        c.Applicable definition args) ∧
    ∀ definition args id, c.form? id = some (.application definition args) →
      (instantiate definition args).run.run c = (.ok id, c) := by
  have hwf := hc.wellFormed
  refine ⟨fun definition args e c' hrun => ?_, fun _ _ _ _ hrun => setBase_eq_of_error hrun,
    fun _ _ _ _ hrun => addInterface_eq_of_error hrun, fun definition args => ?_,
    fun _ _ _ hform => hwf.instantiate_of_form? hform⟩
  · have hcases := instantiated_run c definition args
    rw [hrun] at hcases
    exact hcases.eq_of_error
  · rw [← (instantiated_run c definition args).ok_iff hwf]
    constructor
    · intro h
      obtain ⟨id, c', hrun⟩ := h
      exact ⟨id, by rw [hrun]⟩
    · intro h
      obtain ⟨id, hok⟩ := h
      exact ⟨id, _, Prod.ext hok rfl⟩

/-! ## 3. A full catalogue -/

/-- `Box<T>`. -/
def boxNode : Node := ⟨"Box", .classType, .definition [⟨1⟩], 0, none, []⟩

/-- `Box<T>` and a number of type parameters, with `Box` applied to the first ones. -/
def crowd (items : Nat) : Nat → Catalog
  | 0 => ((empty.declare .classType "Box" ["T"]).2.addParameters (List.replicate items "P")).2
  | count + 1 => ((instantiate ⟨0⟩ [⟨count + 2⟩]).run.run (crowd items count)).2

theorem reachable_crowd (items count : Nat) : (crowd items count).Reachable := by
  induction count with
  | zero =>
    exact (Reachable.empty.perform (.declare .classType "Box" ["T"])).perform (.addParameters _)
  | succ count ih => exact ih.perform (.instantiate ⟨0⟩ [⟨count + 2⟩])

/-- `count` of `items` type parameters are in a `Box`. -/
structure Crowded (items count : Nat) (c : Catalog) : Prop where
  box : c.node? ⟨0⟩ = some boxNode
  item : ∀ i < items, c.form? ⟨i + 2⟩ = some (.parameter i)
  number : c.applications.size = count
  made : ∀ d args, (∃ id, c.form? id = some (.application d args)) ↔
    d = ⟨0⟩ ∧ ∃ i < count, args = [⟨i + 2⟩]

theorem crowded_zero (items : Nat) : Crowded items 0 (crowd items 0) := by
  have hnodes := congrArg Catalog.nodes (addParametersFrom_eq
    (empty.declare .classType "Box" ["T"]).2 0 (List.replicate items "P"))
  refine ⟨node?_append_old hnodes rfl, fun i hi => ?_, ?_, fun d args => ?_⟩
  · have hnew := node?_append_new hnodes i
    rw [List.getElem?_mapIdx, List.getElem?_replicate, if_pos hi, Option.map_some] at hnew
    have hform := form?_of_node? hnew
    simp only [parameterNode, Nat.zero_add] at hform
    rw [Nat.add_comm i 2]
    exact hform
  · show (addParametersFrom _ _ _).2.applications.size = 0
    rw [addParametersFrom_eq]
    exact Std.HashMap.size_empty
  · refine iff_of_false (fun h => ?_) (fun h => ?_)
    · obtain ⟨id, hform⟩ := h
      have hindexed := (reachable_crowd items 0).wellFormed.applications.mpr hform
      have hempty : (crowd items 0).applications = ∅ :=
        congrArg Catalog.applications (addParametersFrom_eq _ _ _)
      simp [hempty] at hindexed
    · simp at h

/-- The next type parameter is put in a `Box`. -/
theorem Crowded.step {items count : Nat} {c : Catalog} (h : Crowded items count c)
    (hc : c.WellFormed) (hitem : count < items) (hroom : count < Limits.applications) :
    Crowded items (count + 1) ((instantiate ⟨0⟩ [⟨count + 2⟩]).run.run c).2 := by
  have hparam := h.item count hitem
  have hnew : c.applications[((⟨0⟩, [⟨count + 2⟩]) : TypeId × List TypeId)]? = none := by
    refine Option.eq_none_iff_forall_ne_some.mpr fun id hid => ?_
    obtain ⟨-, i, hi, heq⟩ := (h.made _ _).mp ⟨id, hc.applications.mp hid⟩
    simp at heq
    omega
  have hdepth : c.applicationDepth [⟨count + 2⟩] ≤ Limits.nesting := by
    have hzero : c.depth ⟨count + 2⟩ = 0 :=
      hc.depth_eq_zero fun d args happ => by cases hparam.symm.trans happ
    simp [applicationDepth, hzero, Limits.nesting]
  have hrun := instantiate_new ⟨0⟩ [⟨count + 2⟩] h.box rfl rfl (by simp)
    (by simp [knows_of_form? hparam]) hnew hdepth (by rw [h.number]; exact hroom)
  rw [hrun]
  have hnodes := nodes_addApplication c ⟨0⟩ boxNode [⟨count + 2⟩]
  have hp := preserves_append hnodes
  refine ⟨node?_append_old hnodes h.box, fun i hi => hp.form? (h.item i hi), ?_, fun d args => ?_⟩
  · rw [size_applications_addApplication hnew, h.number]
  · constructor
    · intro hmade
      obtain ⟨id, hform⟩ := hmade
      obtain ⟨node, hnode, hnform⟩ := form?_eq_some.mp hform
      rcases node?_addApplication_cases hnode with hold | ⟨-, rfl⟩
      · obtain ⟨hd, i, hi, hargs⟩ :=
          (h.made d args).mp ⟨id, form?_eq_some.mpr ⟨node, hold, hnform⟩⟩
        exact ⟨hd, i, by omega, hargs⟩
      · cases hnform
        exact ⟨rfl, count, by omega, rfl⟩
    · rintro ⟨rfl, i, hi, rfl⟩
      rcases Nat.lt_succ_iff_lt_or_eq.mp hi with hlt | rfl
      · obtain ⟨id, hform⟩ := (h.made _ _).mpr ⟨rfl, i, hlt, rfl⟩
        exact ⟨id, hp.form? hform⟩
      · exact ⟨c.nextId, form?_of_node? (node?_addApplication_new c ⟨0⟩ boxNode [⟨i + 2⟩])⟩

theorem crowded_crowd {items count : Nat} (hitems : count ≤ items)
    (hroom : count ≤ Limits.applications) : Crowded items count (crowd items count) := by
  induction count with
  | zero => exact crowded_zero items
  | succ count ih =>
    exact (ih (by omega) (by omega)).step (reachable_crowd items count).wellFormed (by omega)
      (by omega)

/-- With as many boxes as are allowed, each of them is still found, and `Box<Box<T>>` is refused
without a trace. -/
theorem refusal_changes_nothing_crowd :
    (crowd Limits.applications Limits.applications).Reachable ∧
    (crowd Limits.applications Limits.applications).applications.size = Limits.applications ∧
    (∃ id, (instantiate ⟨0⟩ [⟨2⟩]).run.run (crowd Limits.applications Limits.applications) =
      (.ok id, crowd Limits.applications Limits.applications)) ∧
    ∃ e, (instantiate ⟨0⟩ [⟨0⟩]).run.run (crowd Limits.applications Limits.applications) =
      (.error e, crowd Limits.applications Limits.applications) := by
  have hreachable := reachable_crowd Limits.applications Limits.applications
  have hcrowded := crowded_crowd (Nat.le_refl Limits.applications) (Nat.le_refl _)
  generalize crowd Limits.applications Limits.applications = c at hreachable hcrowded ⊢
  obtain ⟨hunchanged, -, -, hiff, hfound⟩ := refusal_changes_nothing hreachable
  have hwf := hreachable.wellFormed
  refine ⟨hreachable, hcrowded.number, ?_, ?_⟩
  · obtain ⟨id, hform⟩ := (hcrowded.made ⟨0⟩ [⟨2⟩]).mpr ⟨rfl, 0, by decide, rfl⟩
    exact ⟨id, hfound _ _ id hform⟩
  · have hnot : ¬ c.Applicable ⟨0⟩ [⟨0⟩] := by
      intro happ
      have hparams : c.params ⟨0⟩ = [⟨1⟩] := by rw [params, hcrowded.box]; rfl
      rcases happ.possible with hown | hmade | hroom
      · simp [hparams] at hown
      · obtain ⟨-, i, -, heq⟩ := (hcrowded.made _ _).mp hmade
        simp at heq
      · have hlt := hroom.number
        rw [hwf.length_applicationIds, hcrowded.number] at hlt
        exact Nat.lt_irrefl _ hlt
    rcases hrun : (instantiate ⟨0⟩ [⟨0⟩]).run.run c with ⟨e | id, c'⟩
    · exact ⟨e, by rw [hunchanged _ _ _ _ hrun]⟩
    · exact absurd ((hiff _ _).mp ⟨id, c', hrun⟩) hnot

end Generics.Catalog

/-
Generics.Proofs.Inference.Soundness — bound types make up the ancestors of the
arguments.

A call binds each type parameter on its own, from whatever places it occurs in, and
never puts the types back into the parameter types. It need not: without
reconciliation a type parameter has one value at all of its places
(`WellFormed.valueAt_of_bound`). So the places of a flat parameter type, a definition
over type parameters of the method, read off the arguments of one ancestor in turn, and
that ancestor is the definition applied to what was bound (`infer_sound`).
-/
import Generics.Proofs.Inference.Specification

namespace Generics.Catalog

section

variable {c : Catalog} {h : Hierarchy} {params arguments : List TypeId} {p param d id : TypeId}
  {i : Nat} {path : List Nat}

/-! ## 1. Bound type parameters -/

/-- A type parameter of a call that succeeds is bound to what is inferred for it. -/
theorem get?_of_infer {options : InferenceOptions} {method : Method} {result : Inference}
    (hok : c.infer options method arguments = .ok result) (hp : p ∈ method.typeParams) :
    method.params.length = arguments.length ∧ ∃ id, result.get? p = some id ∧
      c.inferParameter options method.params arguments p = .ok id := by
  have hgeneric : method.isGeneric = true := by
    simpa [Method.isGeneric] using List.ne_nil_of_mem hp
  by_cases hcount : method.params.length = arguments.length
  · refine ⟨hcount, ?_⟩
    obtain ⟨hnone, rfl⟩ := (infer_ok_iff hgeneric hcount).mp hok
    obtain ⟨hfirsts, hbound⟩ := bindings_of_no_failures hnone
    rw [← hfirsts] at hp
    obtain ⟨b, hb, rfl⟩ := List.mem_map.mp hp
    obtain ⟨id, hid⟩ := Option.isSome_iff_exists.mp
      (List.lookup_isSome_iff.mpr ⟨b, hb, beq_self_eq_true b.1⟩)
    obtain ⟨before, after, heq, -⟩ := List.lookup_eq_some_iff.mp hid
    exact ⟨id, hid, hbound (b.1, id) (by rw [heq]; simp)⟩
  · simp [infer, hgeneric, hcount] at hok

/-- Without reconciliation, all places of a type parameter have the value that it is bound
to. -/
theorem WellFormed.valueAt_of_bound (hc : c.WellFormed) (hfinish : c.finish = .ok h)
    (hp : h.catalog.isParameter p = true) (hcount : params.length = arguments.length)
    (hbound : h.catalog.inferParameter ⟨.exact⟩ params arguments p = .ok id)
    (hoccurs : h.catalog.OccursAt params p i path) :
    h.catalog.ValueAt params arguments i path id := by
  rcases hc.inferParameter_cases ⟨.exact⟩ hfinish hp hcount with
    ⟨hbindable, _, hid, hcandidate⟩ | ⟨_, hreason, -⟩
  · cases hbound.symm.trans hid
    obtain ⟨value, hvalue⟩ := hbindable.valued i path hoccurs
    have hsame : value = id := hbindable.agree value id ⟨i, path, hoccurs, hvalue⟩ hcandidate
    exact hsame ▸ hvalue
  · cases hbound.symm.trans hreason

/-! ## 2. Flat parameter types -/

/-- A path into a parameter type that is a type parameter starts at the argument. -/
theorem StartsAt.eq_argument {argument start : TypeId} (hparam : c.isParameter param = true)
    (hstart : c.StartsAt param argument start) : start = argument := by
  cases hstart with
  | bare => rfl
  | ancestor hdef =>
    rw [definition?_of_isParameter hparam] at hdef
    cases hdef

/-- A type parameter that is a parameter type is bound to the argument. -/
theorem WellFormed.argument_of_bound (hc : c.WellFormed) (hfinish : c.finish = .ok h)
    (hp : h.catalog.isParameter p = true) (hcount : params.length = arguments.length)
    (hbound : h.catalog.inferParameter ⟨.exact⟩ params arguments p = .ok id)
    (hparam : params[i]? = some p) : arguments[i]? = some id := by
  obtain ⟨param, argument, start, hparam', hargument, hstart, hleads⟩ :=
    hc.valueAt_of_bound hfinish hp hcount hbound ⟨p, hparam, .here p⟩
  cases hparam.symm.trans hparam'
  cases hleads
  rw [hargument, hstart.eq_argument hp]

theorem Leads.getElem?_args {index : Nat} (hleads : c.Leads id [index] param) :
    (c.args id)[index]? = some param := by
  cases hleads with
  | into ha hrest =>
    cases hrest
    exact ha

/-- The bound types are, one after the other, the arguments of the ancestor that has the
definition of a flat parameter type. -/
theorem WellFormed.args_of_bound (hc : c.WellFormed) (hfinish : c.finish = .ok h)
    (hcount : params.length = arguments.length) {s : TypeId → TypeId}
    (hflat : ∀ q ∈ h.catalog.args param, h.catalog.isParameter q = true ∧
      h.catalog.inferParameter ⟨.exact⟩ params arguments q = .ok (s q))
    (hparam : params[i]? = some param) (hdef : h.catalog.definition? param = some d) :
    ∃ argument start, arguments[i]? = some argument ∧ h.catalog.StartsAt param argument start ∧
      h.catalog.args start = (h.catalog.args param).map s := by
  have hfinished := hc.of_finish hfinish
  have hvalue : ∀ {index q}, (h.catalog.args param)[index]? = some q →
      h.catalog.ValueAt params arguments i [index] (s q) := by
    intro index q hq
    obtain ⟨hp, hbound⟩ := hflat q (List.mem_of_getElem? hq)
    exact hc.valueAt_of_bound hfinish hp hcount hbound ⟨param, hparam, .into hq (.here q)⟩
  obtain ⟨q, hq⟩ := List.exists_mem_of_ne_nil _ (hfinished.args_ne_nil hdef)
  obtain ⟨index, hindex⟩ := List.getElem?_of_mem hq
  obtain ⟨param', argument, start, hparam', hargument, hstart, -⟩ := hvalue hindex
  cases hparam.symm.trans hparam'
  obtain ⟨hancestor, hdstart, hunique⟩ := (startsAt_of_definition? hdef).mp hstart
  refine ⟨argument, start, hargument, hstart, List.ext_getElem? fun index => ?_⟩
  rw [List.getElem?_map]
  cases hq : (h.catalog.args param)[index]? with
  | some q =>
    -- a place of `q` starts at the same ancestor, the only one of the definition
    obtain ⟨param', argument', start', hparam', hargument', hstart', hleads⟩ := hvalue hq
    cases hparam.symm.trans hparam'
    cases hargument.symm.trans hargument'
    obtain ⟨hancestor', hdstart', -⟩ := (startsAt_of_definition? hdef).mp hstart'
    cases hunique start' hancestor' hdstart'
    exact hleads.getElem?_args
  | none =>
    obtain ⟨ps, hform, hlength⟩ := hfinished.form?_of_definition? hdef
    obtain ⟨ps', hform', hlength'⟩ := hfinished.form?_of_definition? hdstart
    cases hform.symm.trans hform'
    rw [Option.map_none, List.getElem?_eq_none_iff, hlength', ← hlength]
    exact List.getElem?_eq_none_iff.mp hq

end

/-! ## 3. Calls -/

/-- Inference is sound for flat parameter types. Let the type parameters of a method be type
parameters of a finished catalogue, and let a call without reconciliation succeed. A type
parameter that is a parameter type is bound to the type of the argument. And for a
parameter type that is a definition over type parameters of the method, the catalogue has
the definition applied to what these are bound to, and this is the only ancestor of the
argument that has the definition. -/
theorem infer_sound {c : Catalog} {h : Hierarchy} (hc : c.Reachable) (hfinish : c.finish = .ok h)
    (method : Method) (arguments : List TypeId) (result : Inference)
    (hparams : ∀ p ∈ method.typeParams, h.catalog.isParameter p = true)
    (hok : h.catalog.infer ⟨.exact⟩ method arguments = .ok result) :
    (∀ (i : Nat) (p : TypeId), method.params[i]? = some p → p ∈ method.typeParams →
      ∃ argument, arguments[i]? = some argument ∧ result.get? p = some argument) ∧
    ∀ (i : Nat) (param d : TypeId), method.params[i]? = some param →
      h.catalog.definition? param = some d →
      (∀ q ∈ h.catalog.args param, q ∈ method.typeParams) →
      ∃ argument bound a, arguments[i]? = some argument ∧
        (h.catalog.args param).map result.get? = bound.map some ∧
        h.catalog.application? d bound = some a ∧
        h.catalog.Ancestor argument a ∧ h.catalog.definition? a = some d ∧
        ∀ other, h.catalog.Ancestor argument other → h.catalog.definition? other = some d →
          other = a := by
  have hwf := hc.wellFormed
  have hfinished := hwf.of_finish hfinish
  constructor
  · intro i p hparam hp
    obtain ⟨hcount, id, hid, hbound⟩ := get?_of_infer hok hp
    exact ⟨id, hwf.argument_of_bound hfinish (hparams p hp) hcount hbound hparam, hid⟩
  · intro i param d hparam hdef hflat
    let s : TypeId → TypeId := fun q => (result.get? q).getD q
    have hs : ∀ q ∈ h.catalog.args param, result.get? q = some (s q) ∧
        h.catalog.inferParameter ⟨.exact⟩ method.params arguments q = .ok (s q) := by
      intro q hq
      obtain ⟨-, id, hid, hbound⟩ := get?_of_infer hok (hflat q hq)
      have hsq : s q = id := by simp [s, hid]
      exact hsq ▸ ⟨hid, hbound⟩
    obtain ⟨q, hq⟩ := List.exists_mem_of_ne_nil _ (hfinished.args_ne_nil hdef)
    obtain ⟨hcount, -⟩ := get?_of_infer hok (hflat q hq)
    obtain ⟨argument, start, hargument, hstart, hargs⟩ := hwf.args_of_bound hfinish hcount
      (fun q hq => ⟨hparams q (hflat q hq), (hs q hq).2⟩) hparam hdef
    obtain ⟨hancestor, hdstart, hunique⟩ := (startsAt_of_definition? hdef).mp hstart
    refine ⟨argument, h.catalog.args start, start, hargument, ?_,
      hfinished.application?_eq_some_iff.mpr (hfinished.tree_of_definition? hdstart),
      hancestor, hdstart, hunique⟩
    rw [hargs, List.map_map]
    exact List.map_congr_left fun q hq => (hs q hq).1

/-- A method with parameters of the types `Box<U>` and `U`, called with a `Derived<string>` and a
`string`: `U` is bound to the second argument, and `Box<string>` is the only application of
`Box<T>` that the first inherits from. -/
theorem infer_sound_boxes :
    (boxes.Reachable ∧ boxes.finish = .ok ⟨boxesFinished⟩ ∧
      (∀ p ∈ [(⟨3⟩ : TypeId)], boxesFinished.isParameter p = true) ∧
      boxesFinished.infer ⟨.exact⟩ ⟨"put", [⟨3⟩], [⟨4⟩, ⟨3⟩]⟩ [⟨6⟩, ⟨5⟩] =
        .ok ⟨"put", [(⟨3⟩, ⟨5⟩)]⟩) ∧
    (∃ argument, [(⟨6⟩ : TypeId), ⟨5⟩][1]? = some argument ∧
      Inference.get? ⟨"put", [(⟨3⟩, ⟨5⟩)]⟩ ⟨3⟩ = some argument) ∧
    boxesFinished.application? ⟨0⟩ [⟨5⟩] = some ⟨7⟩ ∧ boxesFinished.Ancestor ⟨6⟩ ⟨7⟩ ∧
    ∀ other, boxesFinished.Ancestor ⟨6⟩ other → boxesFinished.definition? other = some ⟨0⟩ →
      other = ⟨7⟩ := by
  have hplaces : boxesFinished.parameterOccurrences [⟨4⟩, ⟨3⟩] ⟨3⟩ =
      [⟨0, ⟨⟨4⟩, [0]⟩⟩, ⟨1, ⟨⟨3⟩, []⟩⟩] := by
    have hbox : boxesFinished.args ⟨4⟩ = [⟨3⟩] := rfl
    simp [parameterOccurrences, occurrences, pushArguments, hbox]
  have hvalues : boxesFinished.evaluateAll [⟨6⟩, ⟨5⟩] [⟨0, ⟨⟨4⟩, [0]⟩⟩, ⟨1, ⟨⟨3⟩, []⟩⟩] =
      .ok [⟨5⟩, ⟨5⟩] := rfl
  have hinfer : boxesFinished.infer ⟨.exact⟩ ⟨"put", [⟨3⟩], [⟨4⟩, ⟨3⟩]⟩ [⟨6⟩, ⟨5⟩] =
      .ok ⟨"put", [(⟨3⟩, ⟨5⟩)]⟩ := by
    simp only [infer, inferEach, inferParameter, hplaces, hvalues, distinct_eq_eraseDups]
    rfl
  have hparams : ∀ p ∈ [(⟨3⟩ : TypeId)], boxesFinished.isParameter p = true := by decide
  obtain ⟨hbare, hflat⟩ := infer_sound reachable_boxes finish_boxes _ _ _ hparams hinfer
  obtain ⟨argument, bound, a, hargument, hbound, happlied, habove, -, honly⟩ :=
    hflat 0 ⟨4⟩ ⟨0⟩ rfl rfl (by decide)
  cases hargument
  have hstring : bound = [⟨5⟩] :=
    List.map_injective_iff.mpr (fun _ _ => Option.some.inj) hbound.symm
  have ha : ⟨7⟩ = a := honly ⟨7⟩ (.inl (.single rfl)) rfl
  subst hstring ha
  exact ⟨⟨reachable_boxes, finish_boxes, hparams, hinfer⟩,
    hbare 1 ⟨3⟩ rfl List.mem_cons_self, happlied, habove, honly⟩

end Generics.Catalog

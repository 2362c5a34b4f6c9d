/-
Generics.Proofs.Inference.Specification — which type arguments a call has.

A type parameter occurs at places: in the parameter type with some number, at the
end of a path through arguments. The value of a place is what the path leads to in
the argument of the call, from the ancestor that has the definition of the
parameter type (`ValueAt`). A type parameter is bindable if it occurs, every place
has a value, and the values agree (`Bindable`).

Inference binds exactly the bindable type parameters, to what their values agree
on, and gives for every other one the reason why it is not (`Unbound`): it does not
occur, or a place has no value, of which the first is reported, or the values
disagree, of which each is reported once, in the order of places. Places are
compared as sequences, the number of the parameter before the path.
-/
import Generics.Proofs.Distinct
import Generics.Proofs.Inference.Completeness

namespace Generics.Catalog

/-! ## 1. Places and values -/

/-- The type parameter `p` stands in the parameter type number `i`, at the end of
`path`. -/
def OccursAt (c : Catalog) (params : List TypeId) (p : TypeId) (i : Nat) (path : List Nat) :
    Prop :=
  ∃ param, params[i]? = some param ∧ c.Leads param path p

/-- Where a path into a parameter type starts in an argument: at the argument
itself if the parameter type is a type parameter, else at the only ancestor of the
argument that has the definition of the parameter type. -/
inductive StartsAt (c : Catalog) (param argument : TypeId) : TypeId → Prop
  | bare (hparam : c.isParameter param = true) : StartsAt c param argument argument
  | ancestor {definition start : TypeId} (hdef : c.definition? param = some definition)
      (hancestor : c.Ancestor argument start) (hstart : c.definition? start = some definition)
      (hunique : ∀ other, c.Ancestor argument other → c.definition? other = some definition →
        other = start) : StartsAt c param argument start

/-- The place has the value `id`: the path leads there from where it starts. -/
def ValueAt (c : Catalog) (params arguments : List TypeId) (i : Nat) (path : List Nat)
    (id : TypeId) : Prop :=
  ∃ param argument start, params[i]? = some param ∧ arguments[i]? = some argument ∧
    c.StartsAt param argument start ∧ c.Leads start path id

/-- Why a place has no value: no ancestor of the argument has the definition of the
parameter type, or several have it, or the path comes to a type that is not generic
or has too few arguments. -/
inductive FaultAt (c : Catalog) (params arguments : List TypeId) (i : Nat) (path : List Nat) :
    LookupError → Prop
  | noAncestor {param argument definition : TypeId} (hparam : params[i]? = some param)
      (hargument : arguments[i]? = some argument) (hdef : c.definition? param = some definition)
      (hnone : ∀ a, c.Ancestor argument a → c.definition? a ≠ some definition) :
      FaultAt c params arguments i path (.noMatchingAncestor argument definition)
  | ambiguous {param argument definition : TypeId} {found : List TypeId}
      (hparam : params[i]? = some param) (hargument : arguments[i]? = some argument)
      (hdef : c.definition? param = some definition)
      (hfound : found = ((c.selfAndBases argument ++ c.interfaces argument).filter
        fun a => c.definition? a = some definition).eraseDups) (hseveral : 2 ≤ found.length) :
      FaultAt c params arguments i path (.ambiguousAncestor argument definition found)
  | notGeneric {param argument start type : TypeId} {before after : List Nat} {index : Nat}
      (hparam : params[i]? = some param) (hargument : arguments[i]? = some argument)
      (hstart : c.StartsAt param argument start) (hpath : path = before ++ index :: after)
      (htype : c.Leads start before type) (hargs : c.args type = []) :
      FaultAt c params arguments i path (.notGeneric type before.length)
  | noSuchArgument {param argument start type : TypeId} {before after : List Nat} {index : Nat}
      (hparam : params[i]? = some param) (hargument : arguments[i]? = some argument)
      (hstart : c.StartsAt param argument start) (hpath : path = before ++ index :: after)
      (htype : c.Leads start before type) (hargs : c.args type ≠ [])
      (hindex : (c.args type).length ≤ index) :
      FaultAt c params arguments i path (.noSuchArgument type index)

/-! ## 2. Type parameters that can be bound -/

/-- `id` is the value of a place where `p` occurs. -/
def Candidate (c : Catalog) (params arguments : List TypeId) (p id : TypeId) : Prop :=
  ∃ i path, c.OccursAt params p i path ∧ c.ValueAt params arguments i path id

/-- The candidates `S` agree: they are all equal, or, if that is enough, they have a
common type among themselves and their bases. -/
def Agree (c : Catalog) (options : InferenceOptions) (S : TypeId → Prop) : Prop :=
  match options.reconciliation with
  | .exact => ∀ x y, S x → S y → x = y
  | .nearestCommonBase => ∃ b, ∀ x, S x → b ∈ c.selfAndBases x

/-- What candidates that agree stand for: the candidate, or the nearest common base. -/
def AgreeOn (c : Catalog) (options : InferenceOptions) (S : TypeId → Prop) (id : TypeId) : Prop :=
  match options.reconciliation with
  | .exact => S id
  | .nearestCommonBase => c.NearestCommonBase S id

/-- The type parameter occurs, all its places have values, and these agree. -/
structure Bindable (c : Catalog) (options : InferenceOptions) (params arguments : List TypeId)
    (p : TypeId) : Prop where
  occurs : ∃ i path, c.OccursAt params p i path
  valued : ∀ i path, c.OccursAt params p i path → ∃ id, c.ValueAt params arguments i path id
  agree : c.Agree options (c.Candidate params arguments p)

/-- Why a type parameter is not bound. -/
inductive Unbound (c : Catalog) (options : InferenceOptions) (params arguments : List TypeId)
    (p : TypeId) : BindingFault → Prop
  | absent (hnone : ∀ i path, ¬ c.OccursAt params p i path) :
      Unbound c options params arguments p .unresolvableInference
  /-- The first place without a value. -/
  | faulty {i : Nat} {path : List Nat} {e : LookupError} (hoccurs : c.OccursAt params p i path)
      (hfirst : ∀ j path', c.OccursAt params p j path' → j :: path' < i :: path →
        ∃ id, c.ValueAt params arguments j path' id)
      (hnone : ¬ ∃ id, c.ValueAt params arguments i path id)
      (hfault : c.FaultAt params arguments i path e) :
      Unbound c options params arguments p (.ofLookupError c e)
  /-- Values that disagree: `values` has each of them once, an earlier one having a
  place before all places of a later one. -/
  | conflict {values : List TypeId}
      (hvalued : ∀ i path, c.OccursAt params p i path →
        ∃ id, c.ValueAt params arguments i path id)
      (hvalues : ∀ id, id ∈ values ↔ c.Candidate params arguments p id) (hnodup : values.Nodup)
      (hordered : values.Pairwise fun v w => ∃ i path, c.OccursAt params p i path ∧
        c.ValueAt params arguments i path v ∧ ∀ j path', c.OccursAt params p j path' →
          c.ValueAt params arguments j path' w → i :: path < j :: path')
      (hdisagree : ¬ c.Agree options (c.Candidate params arguments p)) :
      Unbound c options params arguments p (.ambiguousInference (c.displayAll values))

theorem Bindable.not_unbound {c : Catalog} {options : InferenceOptions}
    {params arguments : List TypeId} {p : TypeId} {reason : BindingFault}
    (hbindable : c.Bindable options params arguments p) :
    ¬ c.Unbound options params arguments p reason := by
  intro hunbound
  cases hunbound with
  | absent hnone =>
    obtain ⟨i, path, hoccurs⟩ := hbindable.occurs
    exact hnone i path hoccurs
  | faulty hoccurs _ hnone _ => exact hnone (hbindable.valued _ _ hoccurs)
  | conflict _ _ _ _ hdisagree => exact hdisagree hbindable.agree

/-! ## 3. Evaluating one place -/

section

variable {c : Catalog} {h : Hierarchy} {param argument start p id : TypeId}
  {params arguments : List TypeId} {i : Nat} {path : List Nat} {e : LookupError}

/-- A parameter type in which a type parameter occurs is that type parameter or
generic. -/
theorem definition?_of_leads (hp : c.isParameter p = true) (hleads : c.Leads param path p) :
    c.isParameter param = true ∨ ∃ d, c.definition? param = some d := by
  cases hleads with
  | here => exact .inl hp
  | into ha _ =>
    refine .inr ?_
    cases hdef : c.definition? param with
    | some d => exact ⟨d, rfl⟩
    | none =>
      rw [args_of_definition?_none hdef] at ha
      cases ha

theorem startsAt_of_definition? {d : TypeId} (hdef : c.definition? param = some d) :
    c.StartsAt param argument start ↔ c.Ancestor argument start ∧ c.definition? start = some d ∧
      ∀ other, c.Ancestor argument other → c.definition? other = some d → other = start := by
  constructor
  · intro hstart
    cases hstart with
    | bare hparam =>
      rw [definition?_of_isParameter hparam] at hdef
      cases hdef
    | ancestor hdef' hancestor hstart hunique =>
      cases hdef.symm.trans hdef'
      exact ⟨hancestor, hstart, hunique⟩
  · rintro ⟨hancestor, hstart, hunique⟩
    exact .ancestor hdef hancestor hstart hunique

/-- The shape of a parameter type is looked up to where paths into it start. -/
theorem WellFormed.ancestor?_iff_startsAt (hc : c.WellFormed) (hfinish : c.finish = .ok h)
    (hp : h.catalog.isParameter p = true) (hleads : h.catalog.Leads param path p) :
    h.catalog.ancestor? argument (h.catalog.unbound param) = .ok (some start) ↔
      h.catalog.StartsAt param argument start := by
  rcases definition?_of_leads hp hleads with hparam | ⟨d, hdef⟩
  · rw [unbound, definition?_of_isParameter hparam, Option.getD_none, ancestor?, if_pos hparam]
    constructor
    · intro heq
      cases heq
      exact .bare hparam
    · intro hstart
      cases hstart with
      | bare => rfl
      | ancestor hdef => rw [definition?_of_isParameter hparam] at hdef; cases hdef
  · obtain ⟨ps, hform, -⟩ := (hc.of_finish hfinish).form?_of_definition? hdef
    rw [unbound, hdef, Option.getD_some, startsAt_of_definition? hdef,
      hc.ancestor?_eq_some_iff hfinish (isDefinition_iff.mpr ⟨ps, hform⟩)]

theorem WellFormed.evaluate_eq_ok_iff (hc : c.WellFormed) (hfinish : c.finish = .ok h)
    (hp : h.catalog.isParameter p = true) (hleads : h.catalog.Leads param path p) :
    h.catalog.evaluate ⟨param, path⟩ argument = .ok id ↔
      ∃ start, h.catalog.StartsAt param argument start ∧ h.catalog.Leads start path id := by
  have hstarts : ∀ {start}, _ ↔ h.catalog.StartsAt param argument start := fun {start} =>
    hc.ancestor?_iff_startsAt hfinish hp hleads
  unfold evaluate
  constructor
  · intro hvalue
    simp only at hvalue
    split at hvalue
    · cases hvalue
    · cases hvalue
    · rename_i start hfound
      exact ⟨start, hstarts.mp hfound, descend_eq_ok_iff.mp hvalue⟩
  · rintro ⟨start, hstart, hpath⟩
    simp only [hstarts.mpr hstart]
    exact descend_eq_ok_iff.mpr hpath

theorem WellFormed.faultAt_of_evaluate (hc : c.WellFormed) (hfinish : c.finish = .ok h)
    (hp : h.catalog.isParameter p = true) (hleads : h.catalog.Leads param path p)
    (hparam : params[i]? = some param) (hargument : arguments[i]? = some argument)
    (herror : h.catalog.evaluate ⟨param, path⟩ argument = .error e) :
    h.catalog.FaultAt params arguments i path e := by
  have hstarts : ∀ {start}, _ ↔ h.catalog.StartsAt param argument start := fun {start} =>
    hc.ancestor?_iff_startsAt hfinish hp hleads
  rcases definition?_of_leads hp hleads with hbare | ⟨d, hdef⟩
  · -- a type parameter has no path into it that could fail
    have hnone := definition?_of_isParameter hbare
    cases hleads with
    | here => simp [evaluate, unbound, hnone, ancestor?, hbare, descend] at herror
    | into ha _ => rw [args_of_definition?_none hnone] at ha; cases ha
  · obtain ⟨ps, hform, -⟩ := (hc.of_finish hfinish).form?_of_definition? hdef
    have hd : h.catalog.isDefinition d = true := isDefinition_iff.mpr ⟨ps, hform⟩
    have hshape : h.catalog.unbound param = d := by rw [unbound, hdef, Option.getD_some]
    rw [hshape] at hstarts
    unfold evaluate at herror
    simp only [hshape] at herror
    split at herror
    · rename_i e' hambiguous
      cases herror
      obtain ⟨hseveral, rfl⟩ := (ancestor?_eq_error_iff hd).mp hambiguous
      have hshape' : h.catalog.hasShape d = fun a => decide (h.catalog.definition? a = some d) := by
        funext a
        simp [hasShape, hd, beq_eq_decide]
      exact .ambiguous hparam hargument hdef (by rw [ancestorsOfShape, hshape']) hseveral
    · rename_i hnone
      cases herror
      exact .noAncestor hparam hargument hdef ((hc.ancestor?_eq_none_iff hfinish hd).mp hnone)
    · rename_i start hfound
      have hstart := hstarts.mp hfound
      obtain ⟨before, index, after, type, hpath, htype, hcase⟩ := descend_eq_error_iff.mp herror
      rcases hcase with ⟨hargs, rfl⟩ | ⟨hargs, hindex, rfl⟩
      · rw [Nat.zero_add]
        exact .notGeneric hparam hargument hstart hpath htype hargs
      · exact .noSuchArgument hparam hargument hstart hpath htype hargs hindex

end

/-! ## 4. Evaluating all places -/

section

variable {c : Catalog} {arguments : List TypeId} {os : List ParameterOccurrence}

/-- Evaluation of a list of places succeeds if it does at every place, and fails as
it does at the first place where it fails. -/
theorem evaluateAll_cases (hrange : ∀ o ∈ os, o.parameter < arguments.length) :
    (∀ ids, c.evaluateAll arguments os = .ok ids →
      os.map (c.evaluateAt? · arguments) = ids.map fun id => some (.ok id)) ∧
    ∀ e, c.evaluateAll arguments os = .error e →
      ∃ before o after, os = before ++ o :: after ∧
        (∀ o' ∈ before, ∃ id, c.evaluateAt? o' arguments = some (.ok id)) ∧
        c.evaluateAt? o arguments = some (.error e) := by
  induction os with
  | nil => simp [evaluateAll]
  | cons o rest ih =>
    obtain ⟨hok, herror⟩ := ih fun o' ho' => hrange o' (List.mem_cons_of_mem _ ho')
    rw [evaluateAll]
    cases hat : c.evaluateAt? o arguments with
    | none =>
      have hlt := hrange o List.mem_cons_self
      simp [evaluateAt?, List.getElem?_eq_getElem hlt] at hat
    | some result =>
      cases result with
      | error e =>
        refine ⟨fun ids hids => (by cases hids), fun e' he' => ⟨[], o, rest, rfl, by simp, ?_⟩⟩
        cases he'
        exact hat
      | ok id =>
        cases hall : c.evaluateAll arguments rest with
        | ok ids =>
          refine ⟨fun ids' hids' => ?_, fun e he => by cases he⟩
          cases hids'
          exact List.cons_eq_cons.mpr ⟨hat, hok ids hall⟩
        | error e =>
          refine ⟨fun ids hids => (by cases hids), fun e' he' => ?_⟩
          cases he'
          obtain ⟨before, o', after, rfl, hbefore, hfail⟩ := herror e hall
          refine ⟨o :: before, o', after, rfl, fun x hx => ?_, hfail⟩
          rcases List.mem_cons.mp hx with rfl | hx
          · exact ⟨id, hat⟩
          · exact hbefore x hx

end

section

variable {c : Catalog} {h : Hierarchy} {params arguments : List TypeId} {p id : TypeId}
  {o : ParameterOccurrence} {i : Nat} {path : List Nat} {e : LookupError}

/-- With as many arguments as parameters, every place is in an argument. -/
theorem WellFormed.lt_of_mem_parameterOccurrences (hc : c.WellFormed)
    (ho : o ∈ c.parameterOccurrences params p)
    (hcount : params.length = arguments.length) : o.parameter < arguments.length := by
  obtain ⟨i, param, path, hparam, -, rfl⟩ := hc.mem_parameterOccurrences.mp ho
  exact hcount ▸ (List.getElem?_eq_some_iff.mp hparam).1

theorem WellFormed.occursAt_iff (hc : c.WellFormed) :
    c.OccursAt params p i path ↔ ∃ o ∈ c.parameterOccurrences params p, place o = i :: path := by
  simp only [hc.mem_parameterOccurrences, hc.mem_pathsTo_iff_leads]
  constructor
  · rintro ⟨param, hparam, hleads⟩
    exact ⟨⟨i, param, path⟩, ⟨i, param, path, hparam, hleads, rfl⟩, rfl⟩
  · rintro ⟨_, ⟨j, param, path', hparam, hleads, rfl⟩, hplace⟩
    cases hplace
    exact ⟨param, hparam, hleads⟩

/-- What is evaluated at a place: its path, against the argument of its number. -/
theorem WellFormed.evaluateAt?_eq (hc : c.WellFormed) (ho : o ∈ c.parameterOccurrences params p)
    (hcount : params.length = arguments.length) :
    ∃ param argument, params[o.parameter]? = some param ∧
      arguments[o.parameter]? = some argument ∧ c.Leads param o.occurrence.indices p ∧
      c.evaluateAt? o arguments = some (c.evaluate ⟨param, o.occurrence.indices⟩ argument) := by
  obtain ⟨i, param, path, hparam, hpath, rfl⟩ := hc.mem_parameterOccurrences.mp ho
  obtain ⟨hlt, -⟩ := List.getElem?_eq_some_iff.mp hparam
  have hargument : arguments[i]? = some arguments[i] := List.getElem?_eq_getElem (hcount ▸ hlt)
  refine ⟨param, arguments[i], hparam, hargument, hc.mem_pathsTo_iff_leads.mp hpath, ?_⟩
  rw [evaluateAt?, hargument, Option.map_some]

theorem WellFormed.evaluateAt?_eq_ok_iff (hc : c.WellFormed) (hfinish : c.finish = .ok h)
    (hp : h.catalog.isParameter p = true) (hcount : params.length = arguments.length)
    (ho : o ∈ h.catalog.parameterOccurrences params p) :
    h.catalog.evaluateAt? o arguments = some (.ok id) ↔
      h.catalog.ValueAt params arguments o.parameter o.occurrence.indices id := by
  obtain ⟨param, argument, hparam, hargument, hleads, heq⟩ :=
    (hc.of_finish hfinish).evaluateAt?_eq ho hcount
  rw [heq, Option.some.injEq, hc.evaluate_eq_ok_iff hfinish hp hleads]
  constructor
  · rintro ⟨start, hstart, hpath⟩
    exact ⟨param, argument, start, hparam, hargument, hstart, hpath⟩
  · rintro ⟨param', argument', start, hparam', hargument', hstart, hpath⟩
    cases hparam.symm.trans hparam'
    cases hargument.symm.trans hargument'
    exact ⟨start, hstart, hpath⟩

theorem WellFormed.faultAt_of_evaluateAt? (hc : c.WellFormed) (hfinish : c.finish = .ok h)
    (hp : h.catalog.isParameter p = true) (hcount : params.length = arguments.length)
    (ho : o ∈ h.catalog.parameterOccurrences params p)
    (herror : h.catalog.evaluateAt? o arguments = some (.error e)) :
    h.catalog.FaultAt params arguments o.parameter o.occurrence.indices e := by
  obtain ⟨param, argument, hparam, hargument, hleads, heq⟩ :=
    (hc.of_finish hfinish).evaluateAt?_eq ho hcount
  rw [heq, Option.some.injEq] at herror
  exact hc.faultAt_of_evaluate hfinish hp hleads hparam hargument herror

end

/-! ## 5. One type parameter -/

section

variable {c : Catalog} {h : Hierarchy} {options : InferenceOptions}
  {params arguments : List TypeId} {p : TypeId}

/-- A failing evaluation is the one at the first place without a value. -/
theorem WellFormed.unbound_of_evaluateAll (hc : c.WellFormed) (hfinish : c.finish = .ok h)
    (hp : h.catalog.isParameter p = true) (hcount : params.length = arguments.length)
    {before after : List ParameterOccurrence} {o : ParameterOccurrence} {e : LookupError}
    (hos : h.catalog.parameterOccurrences params p = before ++ o :: after)
    (hbefore : ∀ o' ∈ before, ∃ id, h.catalog.evaluateAt? o' arguments = some (.ok id))
    (hfail : h.catalog.evaluateAt? o arguments = some (.error e)) :
    h.catalog.Unbound options params arguments p (.ofLookupError h.catalog e) := by
  have hfinished := hc.of_finish hfinish
  have ho : o ∈ h.catalog.parameterOccurrences params p := by rw [hos]; simp
  have hordered := hfinished.pairwise_parameterOccurrences params p
  rw [hos, List.pairwise_append] at hordered
  obtain ⟨-, hafter, -⟩ := hordered
  refine .faulty (hfinished.occursAt_iff.mpr ⟨o, ho, rfl⟩) ?_ ?_
    (hc.faultAt_of_evaluateAt? hfinish hp hcount ho hfail)
  · intro j path' hoccurs hlt
    obtain ⟨o', ho', hplace⟩ := hfinished.occursAt_iff.mp hoccurs
    obtain ⟨rfl, rfl⟩ := List.cons.inj hplace
    have hmem := ho'
    rw [hos, List.mem_append, List.mem_cons] at hmem
    rcases hmem with hmem | rfl | hmem
    · obtain ⟨id, hid⟩ := hbefore o' hmem
      exact ⟨id, (hc.evaluateAt?_eq_ok_iff hfinish hp hcount ho').mp hid⟩
    · exact absurd hlt (List.lt_irrefl _)
    · exact absurd hlt (List.lt_asymm ((List.pairwise_cons.mp hafter).1 o' hmem))
  · rintro ⟨id, hid⟩
    rw [(hc.evaluateAt?_eq_ok_iff hfinish hp hcount ho).mpr hid] at hfail
    cases hfail

section

variable (hc : c.WellFormed) (hfinish : c.finish = .ok h) (hp : h.catalog.isParameter p = true)
  (hcount : params.length = arguments.length) {values : List TypeId}
  (hall : (h.catalog.parameterOccurrences params p).map (h.catalog.evaluateAt? · arguments) =
    values.map fun id => some (.ok id))

include hc hfinish hp hcount hall

/-- The values of all places are the candidates. -/
theorem mem_values_iff (id : TypeId) :
    id ∈ values ↔ h.catalog.Candidate params arguments p id := by
  have hmem : id ∈ values ↔ some (.ok id) ∈
      (h.catalog.parameterOccurrences params p).map (h.catalog.evaluateAt? · arguments) := by
    rw [hall]
    simp
  rw [hmem, List.mem_map]
  constructor
  · rintro ⟨o, ho, hid⟩
    exact ⟨o.parameter, o.occurrence.indices, (hc.of_finish hfinish).occursAt_iff.mpr ⟨o, ho, rfl⟩,
      (hc.evaluateAt?_eq_ok_iff hfinish hp hcount ho).mp hid⟩
  · rintro ⟨i, path, hoccurs, hvalue⟩
    obtain ⟨o, ho, hplace⟩ := (hc.of_finish hfinish).occursAt_iff.mp hoccurs
    obtain ⟨rfl, rfl⟩ := List.cons.inj hplace
    exact ⟨o, ho, (hc.evaluateAt?_eq_ok_iff hfinish hp hcount ho).mpr hvalue⟩

theorem valued_of_evaluateAll {i : Nat} {path : List Nat}
    (hoccurs : h.catalog.OccursAt params p i path) :
    ∃ id, h.catalog.ValueAt params arguments i path id := by
  obtain ⟨o, ho, hplace⟩ := (hc.of_finish hfinish).occursAt_iff.mp hoccurs
  obtain ⟨rfl, rfl⟩ := List.cons.inj hplace
  have hmem := List.mem_map_of_mem (f := (h.catalog.evaluateAt? · arguments)) ho
  rw [hall] at hmem
  obtain ⟨id, -, hid⟩ := List.mem_map.mp hmem
  exact ⟨id, (hc.evaluateAt?_eq_ok_iff hfinish hp hcount ho).mp hid.symm⟩

/-- The distinct values come in the order of the first places that have them. -/
theorem pairwise_values :
    values.eraseDups.Pairwise fun v w => ∃ i path, h.catalog.OccursAt params p i path ∧
      h.catalog.ValueAt params arguments i path v ∧
      ∀ j path', h.catalog.OccursAt params p j path' →
        h.catalog.ValueAt params arguments j path' w → i :: path < j :: path' := by
  have hfinished := hc.of_finish hfinish
  generalize hos : h.catalog.parameterOccurrences params p = os at hall
  have hlength : os.length = values.length := by simpa using congrArg List.length hall
  have hat : ∀ (k : Nat) (o : ParameterOccurrence), os[k]? = some o → ∀ id,
      values[k]? = some id ↔
        h.catalog.ValueAt params arguments o.parameter o.occurrence.indices id := by
    intro k o ho id
    have hk := congrArg (fun l => l[k]?) hall
    simp only [List.getElem?_map, ho, Option.map_some] at hk
    rw [← hc.evaluateAt?_eq_ok_iff hfinish hp hcount (hos ▸ List.mem_of_getElem? ho)]
    cases hvalue : values[k]? with
    | none => simp [hvalue] at hk
    | some x =>
      rw [hvalue, Option.map_some, Option.some.injEq] at hk
      simp [hk]
  have hordered := hfinished.pairwise_parameterOccurrences params p
  rw [hos, List.pairwise_iff_getElem] at hordered
  refine (pairwise_eraseDups values).imp_of_mem fun {v w} hv hw hlt => ?_
  have hv' : values.idxOf v < os.length :=
    hlength ▸ List.idxOf_lt_length_of_mem (List.mem_eraseDups.mp hv)
  have hfirst : os[values.idxOf v]? = some os[values.idxOf v] := List.getElem?_eq_getElem hv'
  have hmem : os[values.idxOf v] ∈ h.catalog.parameterOccurrences params p := by
    rw [hos]
    exact List.getElem_mem hv'
  refine ⟨_, _, hfinished.occursAt_iff.mpr ⟨_, hmem, rfl⟩,
    (hat _ _ hfirst v).mp (List.getElem?_idxOf (List.mem_eraseDups.mp hv)), ?_⟩
  intro j path' hoccurs hvalue
  obtain ⟨o, ho, hplace⟩ := hfinished.occursAt_iff.mp hoccurs
  obtain ⟨rfl, rfl⟩ := List.cons.inj hplace
  obtain ⟨k, hk, rfl⟩ := List.getElem_of_mem (hos ▸ ho)
  have hle := idxOf_le_of_getElem? ((hat k _ (List.getElem?_eq_getElem hk) w).mpr hvalue)
  exact hordered _ _ hv' hk (by omega)

end

/-- One type out of distinct candidates: there has to be one, and they have to
agree. -/
theorem WellFormed.reconcile_cases (hc : c.WellFormed) (options : InferenceOptions)
    (hfinish : c.finish = .ok h)
    {S : TypeId → Prop} {values : List TypeId} (hnodup : values.Nodup)
    (hS : ∀ id, id ∈ values ↔ S id) :
    values = [] ∧ h.catalog.reconcile options values = .error .unresolvableInference ∨
    values ≠ [] ∧ h.catalog.Agree options S ∧
      (∃ id, h.catalog.reconcile options values = .ok id ∧ h.catalog.AgreeOn options S id) ∨
    values ≠ [] ∧ ¬ h.catalog.Agree options S ∧ h.catalog.reconcile options values =
      .error (.ambiguousInference (h.catalog.displayAll values)) := by
  rcases options with ⟨mode⟩
  rcases values with _ | ⟨x, _ | ⟨y, rest⟩⟩
  · exact .inl ⟨rfl, rfl⟩
  · -- a single candidate agrees with itself, in either way
    have hself : x ∈ h.catalog.selfAndBases x := List.mem_cons_self
    have hx : ∀ id, S id ↔ id = x := fun id => by rw [← hS, List.mem_singleton]
    refine .inr (.inl ⟨List.cons_ne_nil _ _, ?_⟩)
    cases mode with
    | exact => simp [Agree, AgreeOn, reconcile, hx]
    | nearestCommonBase =>
      refine ⟨⟨x, fun id hid => ?_⟩, x, rfl, fun id hid => ?_, fun b hb => ?_⟩
      · rw [(hx id).mp hid]; exact hself
      · rw [(hx id).mp hid]; exact hself
      · exact hb x ((hx x).mpr rfl)
  · have hxy : x ≠ y := by
      intro heq
      subst heq
      simp at hnodup
    have hset : (· ∈ x :: y :: rest) = S := funext fun id => propext (hS id)
    refine .inr ?_
    cases mode with
    | exact =>
      refine .inr ⟨List.cons_ne_nil _ _, fun hagree => hxy (hagree x y ?_ ?_), rfl⟩ <;>
        simp [← hS]
    | nearestCommonBase =>
      cases hcommon : h.catalog.nearestCommonBase? (x :: y :: rest) with
      | none =>
        refine .inr ⟨List.cons_ne_nil _ _, fun ⟨b, hb⟩ => ?_, by simp [reconcile, hcommon]⟩
        exact nearestCommonBase?_none (List.cons_ne_nil _ _) hcommon
          ⟨b, fun id hid => hb id ((hS id).mp hid)⟩
      | some b =>
        have hnearest := hc.nearestCommonBase?_some hfinish hcommon
        rw [hset] at hnearest
        exact .inl ⟨List.cons_ne_nil _ _, ⟨b, hnearest.common⟩, b, by simp [reconcile, hcommon],
          hnearest⟩

/-- What is inferred for one type parameter: if it is bindable, what its candidates
agree on, else why it is unbound. -/
theorem WellFormed.inferParameter_cases (hc : c.WellFormed) (options : InferenceOptions)
    (hfinish : c.finish = .ok h)
    (hp : h.catalog.isParameter p = true) (hcount : params.length = arguments.length) :
    (h.catalog.Bindable options params arguments p ∧
      ∃ id, h.catalog.inferParameter options params arguments p = .ok id ∧
        h.catalog.AgreeOn options (h.catalog.Candidate params arguments p) id) ∨
    ∃ reason, h.catalog.inferParameter options params arguments p = .error reason ∧
      h.catalog.Unbound options params arguments p reason := by
  obtain ⟨hok, herror⟩ := evaluateAll_cases fun o ho =>
    (hc.of_finish hfinish).lt_of_mem_parameterOccurrences ho hcount
  rw [inferParameter]
  cases hall : h.catalog.evaluateAll arguments (h.catalog.parameterOccurrences params p) with
  | error e =>
    obtain ⟨before, o, after, hos, hbefore, hfail⟩ := herror e hall
    exact .inr ⟨_, rfl, hc.unbound_of_evaluateAll hfinish hp hcount hos hbefore hfail⟩
  | ok values =>
    have hvalues := hok values hall
    have hmem := mem_values_iff hc hfinish hp hcount hvalues
    have hvalued : ∀ i path, h.catalog.OccursAt params p i path →
        ∃ id, h.catalog.ValueAt params arguments i path id := fun i path =>
      valued_of_evaluateAll hc hfinish hp hcount hvalues
    simp only [distinct_eq_eraseDups]
    rcases hc.reconcile_cases options hfinish (nodup_eraseDups values)
      (fun id => List.mem_eraseDups.trans (hmem id)) with
      ⟨hnil, hresult⟩ | ⟨hne, hagree, id, hresult, hagreeOn⟩ | ⟨-, hdisagree, hresult⟩
    · refine .inr ⟨_, hresult, .absent fun i path hoccurs => ?_⟩
      obtain ⟨id, hid⟩ := hvalued i path hoccurs
      have hcandidate := List.mem_eraseDups.mpr ((hmem id).mpr ⟨i, path, hoccurs, hid⟩)
      rw [hnil] at hcandidate
      cases hcandidate
    · obtain ⟨v, hv⟩ := List.exists_mem_of_ne_nil _ hne
      obtain ⟨i, path, hoccurs, -⟩ := (hmem v).mp (List.mem_eraseDups.mp hv)
      exact .inl ⟨⟨⟨i, path, hoccurs⟩, hvalued, hagree⟩, id, hresult, hagreeOn⟩
    · exact .inr ⟨_, hresult, .conflict hvalued (fun id => List.mem_eraseDups.trans (hmem id))
        (nodup_eraseDups values) (pairwise_values hc hfinish hp hcount hvalues) hdisagree⟩

/-- A type parameter has a result exactly if it is bindable. -/
theorem WellFormed.inferParameter_ok_iff (hc : c.WellFormed) (options : InferenceOptions)
    (hfinish : c.finish = .ok h)
    (hp : h.catalog.isParameter p = true) (hcount : params.length = arguments.length) :
    (∃ id, h.catalog.inferParameter options params arguments p = .ok id) ↔
      h.catalog.Bindable options params arguments p := by
  rcases hc.inferParameter_cases options hfinish hp hcount with
    ⟨hbindable, id, hid, -⟩ | ⟨reason, hreason, hunbound⟩
  · simp [hbindable, hid]
  · have hnot : ¬ h.catalog.Bindable options params arguments p := fun hbindable =>
      hbindable.not_unbound hunbound
    simp [hnot, hreason]

end

/-! ## 6. Calls -/

section

variable {c : Catalog} {options : InferenceOptions} {params arguments : List TypeId}

/-- The failures are those of the type parameters that are not bound. -/
theorem mem_failures_iff {typeParams : List TypeId} {position : Nat} {f : UnboundParameter} :
    f ∈ (c.inferEach options params arguments position typeParams).2 ↔
      ∃ k p, typeParams[k]? = some p ∧ f.position = position + k ∧ f.parameter = c.name p ∧
        c.inferParameter options params arguments p = .error f.reason := by
  induction typeParams generalizing position with
  | nil => simp [inferEach]
  | cons p rest ih =>
    have hrest : f ∈ (c.inferEach options params arguments (position + 1) rest).2 ↔
        ∃ k q, (p :: rest)[k + 1]? = some q ∧ f.position = position + (k + 1) ∧
          f.parameter = c.name q ∧
            c.inferParameter options params arguments q = .error f.reason := by
      simp only [ih, List.getElem?_cons_succ, Nat.add_assoc, Nat.add_comm 1]
    have hsplit : f ∈ (c.inferEach options params arguments position (p :: rest)).2 ↔
        f.position = position ∧ f.parameter = c.name p ∧
          c.inferParameter options params arguments p = .error f.reason ∨
        f ∈ (c.inferEach options params arguments (position + 1) rest).2 := by
      rw [inferEach]
      cases hp : c.inferParameter options params arguments p with
      | ok id => simp
      | error reason =>
        rcases f with ⟨name, at', reason'⟩
        simp [and_assoc, and_comm, eq_comm]
    rw [hsplit, hrest]
    constructor
    · rintro (⟨hposition, hname, hreason⟩ | ⟨k, q, hq, hothers⟩)
      · exact ⟨0, p, rfl, hposition, hname, hreason⟩
      · exact ⟨k + 1, q, hq, hothers⟩
    · rintro ⟨k, q, hq, hposition, hname, hreason⟩
      cases k with
      | zero =>
        cases hq
        exact .inl ⟨hposition, hname, hreason⟩
      | succ k => exact .inr ⟨k, q, hq, hposition, hname, hreason⟩

theorem pairwise_failures (typeParams : List TypeId) (position : Nat) :
    (c.inferEach options params arguments position typeParams).2.Pairwise fun f g =>
      f.position < g.position := by
  induction typeParams generalizing position with
  | nil => exact .nil
  | cons p rest ih =>
    rw [inferEach]
    cases hp : c.inferParameter options params arguments p with
    | ok id => exact ih (position + 1)
    | error reason =>
      refine List.pairwise_cons.mpr ⟨fun g hg => ?_, ih (position + 1)⟩
      obtain ⟨k, _, _, hposition, _⟩ := mem_failures_iff.mp hg
      show position < g.position
      omega

/-- Without failures each type parameter has its binding. -/
theorem bindings_of_no_failures {typeParams : List TypeId} {position : Nat}
    (h : (c.inferEach options params arguments position typeParams).2 = []) :
    (c.inferEach options params arguments position typeParams).1.map Prod.fst = typeParams ∧
      ∀ b ∈ (c.inferEach options params arguments position typeParams).1,
        c.inferParameter options params arguments b.1 = .ok b.2 := by
  induction typeParams generalizing position with
  | nil => simp [inferEach]
  | cons p rest ih =>
    rw [inferEach] at h ⊢
    cases hp : c.inferParameter options params arguments p with
    | error reason => simp [hp] at h
    | ok id =>
      simp only [hp] at h ⊢
      obtain ⟨hparams, hbindings⟩ := ih h
      refine ⟨by rw [List.map_cons, hparams], fun b hb => ?_⟩
      rcases List.mem_cons.mp hb with rfl | hb
      · exact hp
      · exact hbindings b hb

/-- There is no failure exactly if every type parameter has a result. -/
theorem failures_eq_nil_iff {typeParams : List TypeId} {position : Nat} :
    (c.inferEach options params arguments position typeParams).2 = [] ↔
      ∀ p ∈ typeParams, ∃ id, c.inferParameter options params arguments p = .ok id := by
  rw [List.eq_nil_iff_forall_not_mem]
  constructor
  · intro hnone p hp
    obtain ⟨k, hk⟩ := List.getElem?_of_mem hp
    cases hresult : c.inferParameter options params arguments p with
    | ok id => exact ⟨id, rfl⟩
    | error reason =>
      exact absurd (mem_failures_iff.mpr ⟨k, p, hk, rfl, rfl, hresult⟩)
        (hnone ⟨c.name p, position + k, reason⟩)
  · intro hall f hf
    obtain ⟨k, p, hk, -, -, herror⟩ := mem_failures_iff.mp hf
    obtain ⟨id, hid⟩ := hall p (List.mem_of_getElem? hk)
    rw [hid] at herror
    cases herror

theorem infer_ok_iff {method : Method} (hgeneric : method.isGeneric = true)
    (hcount : method.params.length = arguments.length) {result : Inference} :
    c.infer options method arguments = .ok result ↔
      (c.inferEach options method.params arguments 0 method.typeParams).2 = [] ∧
        result =
          ⟨method.name, (c.inferEach options method.params arguments 0 method.typeParams).1⟩ := by
  rw [infer, hgeneric, Bool.not_true, if_neg Bool.false_ne_true, if_neg (not_not_intro hcount)]
  rcases c.inferEach options method.params arguments 0 method.typeParams with
    ⟨bindings, _ | ⟨f, fs⟩⟩
  · simp [eq_comm]
  · simp

theorem infer_error_iff {method : Method} (hgeneric : method.isGeneric = true)
    (hcount : method.params.length = arguments.length) {e : InferenceError} :
    c.infer options method arguments = .error e ↔
      (c.inferEach options method.params arguments 0 method.typeParams).2 ≠ [] ∧
        e = .failed method.name (c.displayAll arguments)
          (c.inferEach options method.params arguments 0 method.typeParams).2 := by
  rw [infer, hgeneric, Bool.not_true, if_neg Bool.false_ne_true, if_neg (not_not_intro hcount)]
  rcases c.inferEach options method.params arguments 0 method.typeParams with
    ⟨bindings, _ | ⟨f, fs⟩⟩
  · simp
  · simp [eq_comm]

end

/-- What inference answers. Let the type parameters of a generic method be type
parameters of a finished catalogue. A call with another number of arguments than the
method has parameters is refused with the two numbers. Any other call succeeds
exactly if every type parameter is bindable. It then binds each of them, in the order
of the method, to what its candidates agree on. Else it fails, and the failures are,
by increasing position, those of the type parameters that are not bindable, each with
the reason. -/
theorem infer_spec {c : Catalog} {h : Hierarchy} (hc : c.Reachable) (hfinish : c.finish = .ok h)
    (options : InferenceOptions) (method : Method) (arguments : List TypeId)
    (hgeneric : method.isGeneric = true)
    (hparams : ∀ p ∈ method.typeParams, h.catalog.isParameter p = true) :
    (method.params.length ≠ arguments.length →
      h.catalog.infer options method arguments =
        .error (.argumentCount method.name method.params.length arguments.length)) ∧
    (method.params.length = arguments.length →
      ((∃ result, h.catalog.infer options method arguments = .ok result) ↔
        ∀ p ∈ method.typeParams, h.catalog.Bindable options method.params arguments p) ∧
      (∀ result, h.catalog.infer options method arguments = .ok result →
        result.method = method.name ∧ result.bindings.map Prod.fst = method.typeParams ∧
        ∀ b ∈ result.bindings,
          h.catalog.AgreeOn options (h.catalog.Candidate method.params arguments b.1) b.2) ∧
      ∀ e, h.catalog.infer options method arguments = .error e →
        ∃ failures, e = .failed method.name (h.catalog.displayAll arguments) failures ∧
          failures.Pairwise (fun f g => f.position < g.position) ∧
          (∀ position, (∃ f ∈ failures, f.position = position) ↔
            ∃ p, method.typeParams[position]? = some p ∧
              ¬ h.catalog.Bindable options method.params arguments p) ∧
          ∀ f ∈ failures, ∃ p, method.typeParams[f.position]? = some p ∧
            f.parameter = h.catalog.name p ∧
            h.catalog.Unbound options method.params arguments p f.reason) := by
  refine ⟨fun hcount => ?_, fun hcount => ?_⟩
  · rw [infer, hgeneric, Bool.not_true, if_neg Bool.false_ne_true, if_pos hcount]
  have hresult := fun p (hp : p ∈ method.typeParams) =>
    hc.wellFormed.inferParameter_cases options hfinish (hparams p hp) hcount
  have hbindable := fun p (hp : p ∈ method.typeParams) =>
    hc.wellFormed.inferParameter_ok_iff options hfinish (hparams p hp) hcount
  refine ⟨?_, fun result hok => ?_, fun e herror => ?_⟩
  · simp only [infer_ok_iff hgeneric hcount, exists_and_left, exists_eq, and_true,
      failures_eq_nil_iff]
    exact forall₂_congr hbindable
  · obtain ⟨hnone, rfl⟩ := (infer_ok_iff hgeneric hcount).mp hok
    obtain ⟨hfirsts, hbindings⟩ := bindings_of_no_failures hnone
    refine ⟨rfl, hfirsts, fun b hb => ?_⟩
    have hb' : b.1 ∈ method.typeParams := hfirsts ▸ List.mem_map_of_mem hb
    rcases hresult b.1 hb' with ⟨-, id, hid, hagree⟩ | ⟨reason, hreason, -⟩
    · cases (hbindings b hb).symm.trans hid
      exact hagree
    · cases (hbindings b hb).symm.trans hreason
  · obtain ⟨-, rfl⟩ := (infer_error_iff hgeneric hcount).mp herror
    refine ⟨_, rfl, pairwise_failures _ _, fun position => ⟨?_, ?_⟩, fun f hf => ?_⟩
    · rintro ⟨f, hf, rfl⟩
      obtain ⟨k, p, hk, hposition, -, hfailed⟩ := mem_failures_iff.mp hf
      rw [Nat.zero_add] at hposition
      refine ⟨p, hposition ▸ hk, fun hbound => ?_⟩
      obtain ⟨id, hid⟩ := (hbindable p (List.mem_of_getElem? hk)).mpr hbound
      cases hid.symm.trans hfailed
    · rintro ⟨p, hp, hnot⟩
      rcases hresult p (List.mem_of_getElem? hp) with ⟨hbound, -⟩ | ⟨reason, hreason, -⟩
      · exact absurd hbound hnot
      · exact ⟨⟨h.catalog.name p, position, reason⟩,
          mem_failures_iff.mpr ⟨position, p, hp, (Nat.zero_add _).symm, rfl, hreason⟩, rfl⟩
    · obtain ⟨k, p, hk, hposition, hname, hfailed⟩ := mem_failures_iff.mp hf
      rw [Nat.zero_add] at hposition
      refine ⟨p, hposition ▸ hk, hname, ?_⟩
      rcases hresult p (List.mem_of_getElem? hk) with ⟨-, id, hid, -⟩ | ⟨reason, hreason, hunbound⟩
      · cases hid.symm.trans hfailed
      · cases hreason.symm.trans hfailed
        exact hunbound

/-- A method with the type parameters `U` and `T` and one parameter of the type
`Box<U>`, called with a `Derived<string>`: `U` is bindable, `T` occurs nowhere, and the
call fails at position 1 alone. -/
theorem infer_spec_boxes :
    (boxes.Reachable ∧ boxes.finish = .ok ⟨boxesFinished⟩ ∧
      ∀ p ∈ [(⟨3⟩ : TypeId), ⟨1⟩], boxesFinished.isParameter p = true) ∧
    boxesFinished.Bindable ⟨.exact⟩ [⟨4⟩] [⟨6⟩] ⟨3⟩ ∧
    ∃ failures, boxesFinished.infer ⟨.exact⟩ ⟨"pair", [⟨3⟩, ⟨1⟩], [⟨4⟩]⟩ [⟨6⟩] =
        .error (.failed "pair" (boxesFinished.displayAll [⟨6⟩]) failures) ∧
      ∀ position, (∃ f ∈ failures, f.position = position) ↔ position = 1 := by
  have hparams : ∀ p ∈ [(⟨3⟩ : TypeId), ⟨1⟩], boxesFinished.isParameter p = true := by decide
  obtain ⟨-, hspec⟩ := infer_spec reachable_boxes finish_boxes ⟨.exact⟩
    ⟨"pair", [⟨3⟩, ⟨1⟩], [⟨4⟩]⟩ [⟨6⟩] rfl hparams
  obtain ⟨hiff, -, herror⟩ := hspec rfl
  -- the only place in `Box<U>` below the root is that of `U`
  have hplaces : ∀ {i path p}, boxesFinished.isParameter p = true →
      boxesFinished.OccursAt [⟨4⟩] p i path → i = 0 ∧ path = [0] ∧ p = ⟨3⟩ := by
    rintro (_ | i) path p hp ⟨param, hparam, hleads⟩
    · cases hparam
      cases hleads with
      | here => exact absurd hp (by decide)
      | @into _ a _ index _ ha hrest =>
        have hat : ([⟨3⟩] : List TypeId)[index]? = some a := ha
        cases index with
        | zero =>
          cases hat
          cases hrest with
          | here => exact ⟨rfl, rfl, rfl⟩
          | into hb _ => cases hb
        | succ index => cases hat
    · cases hparam
  have hchain : ∀ {x}, boxesFinished.Ancestor ⟨6⟩ x → x = ⟨6⟩ ∨ x = ⟨7⟩ := by
    rintro x (habove | hmem)
    · induction habove with
      | refl => exact .inl rfl
      | tail _ hbase ih =>
        rcases ih with rfl | rfl
        · exact .inr (Option.some.inj hbase).symm
        · cases hbase
    · cases hmem
  have hstart : boxesFinished.StartsAt ⟨4⟩ ⟨6⟩ ⟨7⟩ := by
    refine .ancestor rfl (.inl (.single rfl)) rfl fun other hother hdef => ?_
    rcases hchain hother with rfl | rfl
    · cases hdef
    · rfl
  have hvalue : boxesFinished.ValueAt [⟨4⟩] [⟨6⟩] 0 [0] ⟨5⟩ :=
    ⟨⟨4⟩, ⟨6⟩, ⟨7⟩, rfl, rfl, hstart, .into rfl (.here _)⟩
  have honly : ∀ {x}, boxesFinished.Candidate [⟨4⟩] [⟨6⟩] ⟨3⟩ x → x = ⟨5⟩ := by
    rintro x ⟨i, path, hoccurs, param, argument, start, hparam, hargument, hstart, hleads⟩
    obtain ⟨rfl, rfl, -⟩ := hplaces rfl hoccurs
    cases hparam
    cases hargument
    cases hstart with
    | bare hp => cases hp
    | ancestor hdef hancestor hstart =>
      rcases hchain hancestor with rfl | rfl
      · exact absurd (hdef.trans hstart.symm) (by decide)
      · cases hleads with
        | into ha hrest =>
          cases hrest with
          | here => exact (Option.some.inj ha).symm
  have hbindable : boxesFinished.Bindable ⟨.exact⟩ [⟨4⟩] [⟨6⟩] ⟨3⟩ := by
    refine ⟨⟨0, [0], ⟨4⟩, rfl, .into rfl (.here _)⟩, fun i path hoccurs => ?_, ?_⟩
    · obtain ⟨rfl, rfl, -⟩ := hplaces rfl hoccurs
      exact ⟨⟨5⟩, hvalue⟩
    · intro x y hx hy
      rw [honly hx, honly hy]
  have hnot : ¬ boxesFinished.Bindable ⟨.exact⟩ [⟨4⟩] [⟨6⟩] ⟨1⟩ := by
    rintro ⟨⟨i, path, hoccurs⟩, -, -⟩
    obtain ⟨-, -, hp⟩ := hplaces rfl hoccurs
    cases hp
  refine ⟨⟨reachable_boxes, finish_boxes, hparams⟩, hbindable, ?_⟩
  cases hinfer : boxesFinished.infer ⟨.exact⟩ ⟨"pair", [⟨3⟩, ⟨1⟩], [⟨4⟩]⟩ [⟨6⟩] with
  | ok result => exact absurd (hiff.mp ⟨result, hinfer⟩ ⟨1⟩ (by simp)) hnot
  | error e =>
    obtain ⟨failures, rfl, -, hpositions, -⟩ := herror e hinfer
    refine ⟨failures, rfl, fun position => (hpositions position).trans ⟨?_, ?_⟩⟩
    · rintro ⟨p, hp, hp'⟩
      rcases position with _ | _ | position
      · cases hp
        exact absurd hbindable hp'
      · rfl
      · cases hp
    · rintro rfl
      exact ⟨⟨1⟩, rfl, hnot⟩

end Generics.Catalog

/-
Generics.Proofs.Inference.Diagnosis — what a failed step on the way to an occurrence says.

Evaluation goes down from a matched ancestor, and its first step is always taken. So a
diagnosis that a type is not generic is about a type further down
(`evaluate_passes_first_step`). The number in such a diagnosis is that of the steps that were
taken (`notGeneric_counts_steps`). In words it is given as the number of levels by which the
occurrence lies below the type, and that is true exactly if the steps taken are half of the
path: `notGeneric_miscounts_nested` is a call where they are a third.
-/
import Generics.Proofs.Inference.Specification
import Generics.Proofs.Occurrence.Evaluation

namespace Generics.Catalog

/-! ## 1. Where a path stops -/

/-- The first `steps` steps of a path from `start` lead to `type`. The path goes on, but the
type has no arguments. -/
structure StopsAt (c : Catalog) (start : TypeId) (path : List Nat) (steps : Nat)
    (type : TypeId) : Prop where
  goesOn : steps < path.length
  leads : c.Leads start (path.take steps) type
  noArgs : c.args type = []

/-- Whether the evaluation of an occurrence fails. -/
def fails (c : Catalog) (arguments : List TypeId) (o : ParameterOccurrence) : Bool :=
  match c.evaluateAt? o arguments with
  | some (.error _) => true
  | _ => false

/-- The first occurrence of a type parameter whose evaluation fails. -/
def firstFailing? (c : Catalog) (params arguments : List TypeId) (typeParam : TypeId) :
    Option ParameterOccurrence :=
  (c.parameterOccurrences params typeParam).find? (c.fails arguments)

section

variable {c : Catalog} {root target concrete start type : TypeId} {path : List Nat} {steps : Nat}

theorem descend_eq_notGeneric_iff :
    c.descend start 0 path = .error (.notGeneric type steps) ↔ c.StopsAt start path steps type := by
  rw [descend_eq_error_iff]
  constructor
  · rintro ⟨before, index, after, reached, rfl, hleads, ⟨hnone, heq⟩ | ⟨-, -, heq⟩⟩
    · rw [Nat.zero_add] at heq
      cases heq
      exact ⟨by simp, by rwa [List.take_left], hnone⟩
    · cases heq
  · intro hstops
    have hgoesOn := hstops.goesOn
    have hlength : (path.take steps).length = steps :=
      List.length_take_of_le (Nat.le_of_lt hgoesOn)
    refine ⟨path.take steps, path[steps], path.drop (steps + 1), type, ?_,
      hstops.leads, .inl ⟨hstops.noArgs, by rw [hlength, Nat.zero_add]⟩⟩
    rw [← List.drop_eq_getElem_cons, List.take_append_drop]

/-- A path stops at one type only. -/
theorem StopsAt.unique {steps' : Nat} {type' : TypeId} (h : c.StopsAt start path steps type)
    (h' : c.StopsAt start path steps' type') : steps' = steps ∧ type' = type := by
  have heq := (descend_eq_notGeneric_iff.mpr h').symm.trans (descend_eq_notGeneric_iff.mpr h)
  cases heq
  exact ⟨rfl, rfl⟩

/-- At the root itself no occurrence stops, and below it none stops before the first step. -/
theorem WellFormed.stopsAt_of_evaluate (hc : c.WellFormed) {o : Occurrence}
    (ho : o ∈ c.occurrences root target)
    (h : c.evaluate o concrete = .error (.notGeneric type steps)) :
    ∃ start, c.ancestor? concrete (c.unbound root) = .ok (some start) ∧
      c.StopsAt start o.indices steps type ∧ 1 ≤ steps := by
  obtain ⟨rfl, hleads⟩ := hc.mem_occurrences_iff.mp ho
  have hevaluated := evaluated c o concrete
  rw [h] at hevaluated
  generalize hresult : (Except.error _ : Except LookupError TypeId) = result at hevaluated
  cases hevaluated with
  | unmatched => cases hresult
  | ambiguous => cases hresult
  | @matched start hmatched =>
    have hstops := descend_eq_notGeneric_iff.mp hresult.symm
    refine ⟨start, hmatched, hstops, ?_⟩
    -- the path goes on, so it is not the empty one that leads from the root to itself
    have hne : target ≠ o.root := by
      rintro rfl
      cases hindices : o.indices with
      | nil =>
        have hgoesOn := hstops.goesOn
        rw [hindices] at hgoesOn
        cases hgoesOn
      | cons index rest =>
        rw [hindices] at hleads
        exact hc.not_leads_self hleads
    rcases hc.evaluate_error_cases hne ho h with
      heq | ⟨candidates, heq⟩ | ⟨_, before, _, _, _, -, -, hbefore, -, ⟨-, heq⟩ | ⟨-, -, heq⟩⟩
    · cases heq
    · cases heq
    · cases heq
      exact List.length_pos_of_ne_nil hbefore
    · cases heq

end

/-! ## 2. The failures of a call -/

section

variable {c : Catalog} {options : InferenceOptions} {method : Method}
  {params arguments : List TypeId} {p : TypeId}

theorem find?_fails_of_evaluateAll {os : List ParameterOccurrence} {e : LookupError}
    (h : c.evaluateAll arguments os = .error e) :
    ∃ o, os.find? (c.fails arguments) = some o ∧ c.evaluateAt? o arguments = some (.error e) := by
  induction os with
  | nil => cases h
  | cons o rest ih =>
    rw [evaluateAll] at h
    rw [List.find?_cons, fails]
    rcases hvalue : c.evaluateAt? o arguments with _ | (e' | id)
    · rw [hvalue] at h
      exact ih h
    · rw [hvalue] at h
      cases h
      exact ⟨o, rfl, hvalue⟩
    · simp only [hvalue] at h
      cases hrest : c.evaluateAll arguments rest with
      | error e' =>
        rw [hrest] at h
        cases h
        exact ih hrest
      | ok ids => rw [hrest] at h; cases h

/-- That a type is not generic is said of the first occurrence that fails. -/
theorem evaluateAll_of_inferParameter {type : String} {depth : Nat}
    (h : c.inferParameter options params arguments p = .error (.notGeneric type depth)) :
    ∃ reached, type = c.display reached ∧
      c.evaluateAll arguments (c.parameterOccurrences params p) =
        .error (.notGeneric reached depth) := by
  rw [inferParameter] at h
  split at h
  · rename_i e hvalues
    cases e with
    | notGeneric reached steps =>
      cases h
      exact ⟨reached, rfl, hvalues⟩
    | _ => cases h
  · -- candidates that do not agree are reported with another reason
    unfold reconcile at h
    split at h
    · cases h
    · cases h
    · dsimp only at h
      split at h <;> cases h

/-- A failure belongs to the type parameter at its position. -/
theorem inferParameter_of_mem_failures {e : InferenceError} {f : UnboundParameter}
    (h : c.infer options method arguments = .error e) (hf : f ∈ e.failures) :
    ∃ p, method.typeParams[f.position]? = some p ∧ f.parameter = c.name p ∧
      c.inferParameter options method.params arguments p = .error f.reason := by
  cases hgeneric : method.isGeneric with
  | false =>
    rw [infer, hgeneric] at h
    cases h
  | true =>
    by_cases hcount : method.params.length = arguments.length
    · obtain ⟨-, rfl⟩ := (infer_error_iff hgeneric hcount).mp h
      obtain ⟨k, p, hp, hposition, hname, hreason⟩ := mem_failures_iff.mp hf
      rw [Nat.zero_add] at hposition
      rw [hposition]
      exact ⟨p, hp, hname, hreason⟩
    · rw [infer, hgeneric, Bool.not_true, if_neg Bool.false_ne_true, if_pos hcount] at h
      cases h
      cases hf

/-- Where the diagnosis that a type is not generic comes from. -/
theorem WellFormed.stopsAt_of_infer (hc : c.WellFormed) {e : InferenceError}
    {f : UnboundParameter} {type : String} {depth : Nat}
    (h : c.infer options method arguments = .error e) (hf : f ∈ e.failures)
    (hreason : f.reason = .notGeneric type depth) :
    ∃ p o argument start reached,
      (method.typeParams[f.position]? = some p ∧ f.parameter = c.name p) ∧
      c.firstFailing? method.params arguments p = some o ∧
      arguments[o.parameter]? = some argument ∧
      c.ancestor? argument (c.unbound o.occurrence.root) = .ok (some start) ∧
      type = c.display reached ∧ c.StopsAt start o.occurrence.indices depth reached ∧
      1 ≤ depth := by
  -- from the failure back to its type parameter, its first failing occurrence, and the path
  obtain ⟨p, hp, hname, hparameter⟩ := inferParameter_of_mem_failures h hf
  rw [hreason] at hparameter
  obtain ⟨reached, hdisplay, hvalues⟩ := evaluateAll_of_inferParameter hparameter
  obtain ⟨o, hfirst, hvalue⟩ := find?_fails_of_evaluateAll hvalues
  obtain ⟨argument, hargument, hevaluate⟩ := Option.map_eq_some_iff.mp hvalue
  have ho : o.occurrence ∈ c.occurrences o.occurrence.root p := by
    obtain ⟨i, param, path, -, hpath, rfl⟩ :=
      hc.mem_parameterOccurrences.mp (List.mem_of_find?_eq_some hfirst)
    rw [hc.occurrences_eq]
    exact List.mem_map_of_mem hpath
  obtain ⟨start, hmatched, hstops, hdepth⟩ := hc.stopsAt_of_evaluate ho hevaluate
  exact ⟨p, o, argument, start, reached, ⟨hp, hname⟩, hfirst, hargument, hmatched, hdisplay,
    hstops, hdepth⟩

end

/-! ## 3. The first step is taken -/

/-- If the parameter type of a path is matched, the matched ancestor has equally many
arguments, and the path takes its first step there. So a type that is not generic is met at
depth one at the earliest, and an argument that does not exist is missed after a step. Where
all paths have one step, evaluation fails only for want of one matching ancestor. -/
theorem evaluate_passes_first_step {c : Catalog} {h : Hierarchy} (hc : c.Reachable)
    (hfinish : c.finish = .ok h) :
    (∀ (root target concrete : TypeId) (o : Occurrence), target ≠ root →
      o ∈ h.catalog.occurrences root target →
      (∀ a, h.catalog.ancestor? concrete (h.catalog.unbound root) = .ok (some a) →
        (h.catalog.args a).length = (h.catalog.args root).length ∧
        ∃ index rest next, o.indices = index :: rest ∧
          (h.catalog.args a)[index]? = some next ∧
          h.catalog.evaluate o concrete = h.catalog.descend next 1 rest) ∧
      (∀ type depth, h.catalog.evaluate o concrete = .error (.notGeneric type depth) →
        1 ≤ depth) ∧
      (∀ type index, h.catalog.evaluate o concrete = .error (.noSuchArgument type index) →
        ∃ a before after,
          h.catalog.ancestor? concrete (h.catalog.unbound root) = .ok (some a) ∧
          o.indices = before ++ index :: after ∧ before ≠ [] ∧ h.catalog.Leads a before type) ∧
      ((∀ o' ∈ h.catalog.occurrences root target, o'.indices.length = 1) →
        ∀ e, h.catalog.evaluate o concrete = .error e →
          e = .noMatchingAncestor concrete (h.catalog.unbound root) ∨
          ∃ candidates, e = .ambiguousAncestor concrete (h.catalog.unbound root) candidates)) ∧
    ∀ (options : InferenceOptions) (method : Method) (arguments : List TypeId)
      (e : InferenceError), h.catalog.infer options method arguments = .error e →
      ∀ f ∈ e.failures, ∀ type depth, f.reason = .notGeneric type depth → 1 ≤ depth := by
  have hfinished := hc.wellFormed.of_finish hfinish
  constructor
  · intro root target concrete o hne ho
    obtain ⟨-, ⟨d, hdef⟩, -⟩ := hfinished.exists_argument_of_mem_occurrences hne ho
    refine ⟨fun a hmatched => ?_, fun type depth hfail => ?_, fun type index hfail => ?_,
      fun hdirect e hfail => ?_⟩
    · exact ⟨hfinished.length_args_of_ancestor? hdef hmatched,
        hfinished.evaluate_eq_descend hne ho hmatched⟩
    · obtain ⟨-, -, -, hdepth⟩ := hfinished.stopsAt_of_evaluate ho hfail
      exact hdepth
    · rcases hfinished.evaluate_error_cases hne ho hfail with heq | ⟨candidates, heq⟩ |
        ⟨a, before, index', after, type', hmatched, hpath, hbefore, hleads, ⟨-, heq⟩ | ⟨-, -, heq⟩⟩
      · cases heq
      · cases heq
      · cases heq
      · cases heq
        exact ⟨a, before, after, hmatched, hpath, hbefore, hleads⟩
    · rcases hfinished.evaluate_error_cases hne ho hfail with heq | hambiguous |
        ⟨a, before, index, after, type, -, hpath, hbefore, -⟩
      · exact .inl heq
      · exact .inr hambiguous
      · -- a path that fails after its first step has two steps
        have hlength := hdirect o ho
        have hpos := List.length_pos_of_ne_nil hbefore
        rw [hpath, List.length_append, List.length_cons] at hlength
        omega
  · intro options method arguments e hinfer f hf type depth hreason
    obtain ⟨_, _, _, _, _, -, -, -, -, -, -, hdepth⟩ := hfinished.stopsAt_of_infer hinfer hf hreason
    exact hdepth

/-- `Box<U>` is matched with the base `Box<string>` of `Derived<string>`, and the only step of
the path leads to `string`. With `string` itself nothing matches, and nothing else can fail. -/
theorem evaluate_passes_first_step_boxes :
    (boxes.Reachable ∧ boxes.finish = .ok ⟨boxesFinished⟩ ∧
      boxesFinished.occurrences ⟨4⟩ ⟨3⟩ = [⟨⟨4⟩, [0]⟩] ∧
      boxesFinished.ancestor? ⟨6⟩ (boxesFinished.unbound ⟨4⟩) = .ok (some ⟨7⟩)) ∧
    (boxesFinished.args ⟨7⟩).length = (boxesFinished.args ⟨4⟩).length ∧
    (∃ next, (boxesFinished.args ⟨7⟩)[0]? = some next ∧
      boxesFinished.evaluate ⟨⟨4⟩, [0]⟩ ⟨6⟩ = boxesFinished.descend next 1 []) ∧
    ∃ e, boxesFinished.evaluate ⟨⟨4⟩, [0]⟩ ⟨5⟩ = .error e ∧
      (e = .noMatchingAncestor ⟨5⟩ (boxesFinished.unbound ⟨4⟩) ∨
        ∃ candidates, e = .ambiguousAncestor ⟨5⟩ (boxesFinished.unbound ⟨4⟩) candidates) := by
  have hplaces : boxesFinished.occurrences ⟨4⟩ ⟨3⟩ = [⟨⟨4⟩, [0]⟩] := by
    have hbox : boxesFinished.args ⟨4⟩ = [⟨3⟩] := rfl
    simp [occurrences, pushArguments, hbox]
  have hmatched : boxesFinished.ancestor? ⟨6⟩ (boxesFinished.unbound ⟨4⟩) = .ok (some ⟨7⟩) := rfl
  have hmem : ⟨⟨4⟩, [0]⟩ ∈ boxesFinished.occurrences ⟨4⟩ ⟨3⟩ := by
    rw [hplaces]
    exact List.mem_cons_self
  obtain ⟨hpaths, -⟩ := evaluate_passes_first_step reachable_boxes finish_boxes
  obtain ⟨hstep, -⟩ := hpaths ⟨4⟩ ⟨3⟩ ⟨6⟩ ⟨⟨4⟩, [0]⟩ (by decide) hmem
  obtain ⟨-, -, -, hdirect⟩ := hpaths ⟨4⟩ ⟨3⟩ ⟨5⟩ ⟨⟨4⟩, [0]⟩ (by decide) hmem
  obtain ⟨hlength, index, rest, next, hindices, hnext, hvalue⟩ := hstep ⟨7⟩ hmatched
  cases hindices
  have hfail : boxesFinished.evaluate ⟨⟨4⟩, [0]⟩ ⟨5⟩ = .error (.noMatchingAncestor ⟨5⟩ ⟨0⟩) := rfl
  exact ⟨⟨reachable_boxes, finish_boxes, hplaces, hmatched⟩, hlength, ⟨next, hnext, hvalue⟩,
    _, hfail, hdirect (by simp [hplaces]) _ hfail⟩

/-! ## 4. Boxes in boxes -/

/-- `Box<T>`, `string` and a parameter `V`, with `Box<V>`, `Box<Box<V>>`, `Box<Box<Box<V>>>` and
`Box<string>`. -/
def nested : Catalog where
  nodes := #[
    ⟨"Box", .classType, .definition [⟨1⟩], 0, none, []⟩,
    ⟨"T", .classType, .parameter 0, 0, none, []⟩,
    ⟨"string", .classType, .plain, 0, none, []⟩,
    ⟨"V", .classType, .parameter 0, 0, none, []⟩,
    ⟨"Box", .classType, .application ⟨0⟩ [⟨3⟩], 1, none, []⟩,
    ⟨"Box", .classType, .application ⟨0⟩ [⟨4⟩], 2, none, []⟩,
    ⟨"Box", .classType, .application ⟨0⟩ [⟨5⟩], 3, none, []⟩,
    ⟨"Box", .classType, .application ⟨0⟩ [⟨2⟩], 1, none, []⟩]
  declared := ((∅ : Std.HashMap String TypeId).insertIfNew "Box" ⟨0⟩).insertIfNew "string" ⟨2⟩
  applications := ((((∅ : Std.HashMap (TypeId × List TypeId) TypeId).insert
    (⟨0⟩, [⟨3⟩]) ⟨4⟩).insert (⟨0⟩, [⟨4⟩]) ⟨5⟩).insert (⟨0⟩, [⟨5⟩]) ⟨6⟩).insert (⟨0⟩, [⟨2⟩]) ⟨7⟩

theorem reachable_nested : nested.Reachable := by
  have hdeclared := ((Reachable.empty.perform (.declare .classType "Box" ["T"])).perform
    (.declare .classType "string" [])).perform (.addParameters ["V"])
  have hone := hdeclared.perform_eq (.instantiate ⟨0⟩ [⟨3⟩]) (congrArg Prod.snd
    (instantiate_new ⟨0⟩ [⟨3⟩] rfl rfl rfl (by decide) (by decide) Std.HashMap.getElem?_empty
      (by decide) (by decide)))
  have hnewTwo : ((∅ : Std.HashMap (TypeId × List TypeId) TypeId).insert
      (⟨0⟩, [⟨3⟩]) ⟨4⟩)[((⟨0⟩, [⟨4⟩]) : TypeId × List TypeId)]? = none := by simp
  have hroomTwo : ((∅ : Std.HashMap (TypeId × List TypeId) TypeId).insert
      (⟨0⟩, [⟨3⟩]) ⟨4⟩).size < Limits.applications := by
    simp [Std.HashMap.size_insert, Limits.applications]
  have htwo := hone.perform_eq (.instantiate ⟨0⟩ [⟨4⟩]) (congrArg Prod.snd
    (instantiate_new ⟨0⟩ [⟨4⟩] rfl rfl rfl (by decide) (by decide) hnewTwo (by decide) hroomTwo))
  have hnewThree : (((∅ : Std.HashMap (TypeId × List TypeId) TypeId).insert (⟨0⟩, [⟨3⟩]) ⟨4⟩).insert
      (⟨0⟩, [⟨4⟩]) ⟨5⟩)[((⟨0⟩, [⟨5⟩]) : TypeId × List TypeId)]? = none := by simp
  have hroomThree : (((∅ : Std.HashMap (TypeId × List TypeId) TypeId).insert
      (⟨0⟩, [⟨3⟩]) ⟨4⟩).insert (⟨0⟩, [⟨4⟩]) ⟨5⟩).size < Limits.applications := by
    simp [Std.HashMap.size_insert, Limits.applications]
  have hthree := htwo.perform_eq (.instantiate ⟨0⟩ [⟨5⟩]) (congrArg Prod.snd
    (instantiate_new ⟨0⟩ [⟨5⟩] rfl rfl rfl (by decide) (by decide) hnewThree (by decide)
      hroomThree))
  have hnewFour : ((((∅ : Std.HashMap (TypeId × List TypeId) TypeId).insert
      (⟨0⟩, [⟨3⟩]) ⟨4⟩).insert (⟨0⟩, [⟨4⟩]) ⟨5⟩).insert (⟨0⟩, [⟨5⟩]) ⟨6⟩)[
      ((⟨0⟩, [⟨2⟩]) : TypeId × List TypeId)]? = none := by simp
  have hroomFour : ((((∅ : Std.HashMap (TypeId × List TypeId) TypeId).insert
      (⟨0⟩, [⟨3⟩]) ⟨4⟩).insert (⟨0⟩, [⟨4⟩]) ⟨5⟩).insert (⟨0⟩, [⟨5⟩]) ⟨6⟩).size <
      Limits.applications := by
    simp [Std.HashMap.size_insert, Limits.applications]
  have hfour := hthree.perform_eq (.instantiate ⟨0⟩ [⟨2⟩]) (congrArg Prod.snd
    (instantiate_new ⟨0⟩ [⟨2⟩] rfl rfl rfl (by decide) (by decide) hnewFour (by decide) hroomFour))
  exact hfour

theorem linkless_nested : nested.Linkless := by
  unfold Linkless
  decide

theorem finish_nested : nested.finish = .ok ⟨nested⟩ :=
  reachable_nested.wellFormed.finish_of_linkless linkless_nested

theorem parameterOccurrences_nested :
    nested.parameterOccurrences [⟨5⟩] ⟨3⟩ = [⟨0, ⟨⟨5⟩, [0, 0]⟩⟩] ∧
      nested.parameterOccurrences [⟨6⟩] ⟨3⟩ = [⟨0, ⟨⟨6⟩, [0, 0, 0]⟩⟩] := by
  have hone : nested.args ⟨4⟩ = [⟨3⟩] := rfl
  have htwo : nested.args ⟨5⟩ = [⟨4⟩] := rfl
  have hthree : nested.args ⟨6⟩ = [⟨5⟩] := rfl
  constructor <;>
    simp [parameterOccurrences, occurrences, pushArguments, hone, htwo, hthree]

/-- Against `Box<string>`, the path to `V` in `Box<Box<V>>` stops at `string` after one step, and so
does the longer one in `Box<Box<Box<V>>>`. -/
theorem infer_nested :
    nested.infer ⟨.exact⟩ ⟨"unpack", [⟨3⟩], [⟨5⟩]⟩ [⟨7⟩] =
        .error (.failed "unpack" (nested.displayAll [⟨7⟩]) [⟨"V", 0, .notGeneric "string" 1⟩]) ∧
      nested.infer ⟨.exact⟩ ⟨"unpack", [⟨3⟩], [⟨6⟩]⟩ [⟨7⟩] =
        .error (.failed "unpack" (nested.displayAll [⟨7⟩]) [⟨"V", 0, .notGeneric "string" 1⟩]) := by
  obtain ⟨htwo, hthree⟩ := parameterOccurrences_nested
  have hstring : nested.display ⟨2⟩ = "string" := by
    rw [display]
    rfl
  have hstopsTwo : nested.evaluateAll [⟨7⟩] [⟨0, ⟨⟨5⟩, [0, 0]⟩⟩] = .error (.notGeneric ⟨2⟩ 1) := rfl
  have hstopsThree : nested.evaluateAll [⟨7⟩] [⟨0, ⟨⟨6⟩, [0, 0, 0]⟩⟩] =
    .error (.notGeneric ⟨2⟩ 1) := rfl
  constructor
  · simp only [infer, inferEach, inferParameter, htwo, hstopsTwo, BindingFault.ofLookupError,
      hstring]
    rfl
  · simp only [infer, inferEach, inferParameter, hthree, hstopsThree, BindingFault.ofLookupError,
      hstring]
    rfl

/-! ## 5. The number in the diagnosis -/

/-- The diagnosis that a type is not generic comes from the first occurrence that fails, whose
path stops at that type. The number in it is that of the steps that were taken. It is also that
of the levels between the type and the occurrence exactly if the path is twice as long. -/
theorem notGeneric_counts_steps {c : Catalog} {h : Hierarchy} (hc : c.Reachable)
    (hfinish : c.finish = .ok h) {options : InferenceOptions} {method : Method}
    {arguments : List TypeId} {e : InferenceError} {f : UnboundParameter} {type : String}
    {depth : Nat} (hinfer : h.catalog.infer options method arguments = .error e)
    (hf : f ∈ e.failures) (hreason : f.reason = .notGeneric type depth) :
    ∃ p o argument start reached,
      (method.typeParams[f.position]? = some p ∧ f.parameter = h.catalog.name p) ∧
      h.catalog.firstFailing? method.params arguments p = some o ∧
      arguments[o.parameter]? = some argument ∧
      h.catalog.ancestor? argument (h.catalog.unbound o.occurrence.root) = .ok (some start) ∧
      type = h.catalog.display reached ∧
      (∀ steps reached', h.catalog.StopsAt start o.occurrence.indices steps reached' ↔
        steps = depth ∧ reached' = reached) ∧
      1 ≤ depth ∧
      ((∃ steps, h.catalog.StopsAt start o.occurrence.indices steps reached ∧
          o.occurrence.indices.length - steps = depth) ↔
        o.occurrence.indices.length = 2 * depth) := by
  obtain ⟨p, o, argument, start, reached, hp, hfirst, hargument, hmatched, hdisplay, hstops,
    hdepth⟩ := (hc.wellFormed.of_finish hfinish).stopsAt_of_infer hinfer hf hreason
  refine ⟨p, o, argument, start, reached, hp, hfirst, hargument, hmatched, hdisplay, ?_, hdepth, ?_⟩
  · intro steps reached'
    constructor
    · exact hstops.unique
    · rintro ⟨rfl, rfl⟩
      exact hstops
  · have hgoesOn := hstops.goesOn
    constructor
    · rintro ⟨steps, hstops', hlevels⟩
      obtain ⟨rfl, -⟩ := hstops.unique hstops'
      omega
    · intro hlength
      exact ⟨depth, hstops, by omega⟩

/-- Half of the path to `V` in `Box<Box<V>>` could be gone, so the number is also that of the
levels below `string`. -/
theorem notGeneric_counts_steps_nested :
    (nested.Reachable ∧ nested.finish = .ok ⟨nested⟩ ∧
      nested.infer ⟨.exact⟩ ⟨"unpack", [⟨3⟩], [⟨5⟩]⟩ [⟨7⟩] =
        .error (.failed "unpack" (nested.displayAll [⟨7⟩]) [⟨"V", 0, .notGeneric "string" 1⟩])) ∧
    nested.firstFailing? [⟨5⟩] [⟨7⟩] ⟨3⟩ = some ⟨0, ⟨⟨5⟩, [0, 0]⟩⟩ ∧
    ∃ steps, nested.StopsAt ⟨7⟩ [0, 0] steps ⟨2⟩ ∧ [0, 0].length - steps = 1 := by
  obtain ⟨hplaces, -⟩ := parameterOccurrences_nested
  obtain ⟨hinfer, -⟩ := infer_nested
  have hfails : nested.firstFailing? [⟨5⟩] [⟨7⟩] ⟨3⟩ = some ⟨0, ⟨⟨5⟩, [0, 0]⟩⟩ := by
    rw [firstFailing?, hplaces]
    rfl
  have hstops : nested.StopsAt ⟨7⟩ [0, 0] 1 ⟨2⟩ := descend_eq_notGeneric_iff.mp rfl
  obtain ⟨p, o, argument, start, reached, ⟨hp, -⟩, hfirst, hargument, hmatched, -, hiff, -,
    htrue⟩ := notGeneric_counts_steps reachable_nested finish_nested hinfer List.mem_cons_self rfl
  cases hp
  cases hfails.symm.trans hfirst
  cases hargument
  cases hmatched
  obtain ⟨-, rfl⟩ := (hiff _ _).mp hstops
  exact ⟨⟨reachable_nested, finish_nested, hinfer⟩, hfails, htrue.mpr rfl⟩

/-- The path to `V` in `Box<Box<Box<V>>>` stops at the same place, and `V` lies two levels below it.
The diagnosis says that it lies one level below. -/
theorem notGeneric_miscounts_nested :
    nested.Reachable ∧ nested.finish = .ok ⟨nested⟩ ∧
    nested.infer ⟨.exact⟩ ⟨"unpack", [⟨3⟩], [⟨6⟩]⟩ [⟨7⟩] =
      .error (.failed "unpack" (nested.displayAll [⟨7⟩]) [⟨"V", 0, .notGeneric "string" 1⟩]) ∧
    (BindingFault.notGeneric "string" 1).message =
      "`string` is not generic but the occurrence lies 1 level(s) below it" ∧
    nested.firstFailing? [⟨6⟩] [⟨7⟩] ⟨3⟩ = some ⟨0, ⟨⟨6⟩, [0, 0, 0]⟩⟩ ∧
    nested.ancestor? ⟨7⟩ (nested.unbound ⟨6⟩) = .ok (some ⟨7⟩) ∧
    nested.StopsAt ⟨7⟩ [0, 0, 0] 1 ⟨2⟩ ∧
    ∀ steps type, nested.StopsAt ⟨7⟩ [0, 0, 0] steps type → [0, 0, 0].length - steps = 2 := by
  obtain ⟨-, hplaces⟩ := parameterOccurrences_nested
  obtain ⟨-, hinfer⟩ := infer_nested
  have hfails : nested.firstFailing? [⟨6⟩] [⟨7⟩] ⟨3⟩ = some ⟨0, ⟨⟨6⟩, [0, 0, 0]⟩⟩ := by
    rw [firstFailing?, hplaces]
    rfl
  have hstops : nested.StopsAt ⟨7⟩ [0, 0, 0] 1 ⟨2⟩ := descend_eq_notGeneric_iff.mp rfl
  refine ⟨reachable_nested, finish_nested, hinfer, by decide, hfails, rfl, hstops, ?_⟩
  intro steps type hstops'
  obtain ⟨rfl, -⟩ := hstops.unique hstops'
  rfl

end Generics.Catalog

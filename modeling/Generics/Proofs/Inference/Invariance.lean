/-
Generics.Proofs.Inference.Invariance — calls that infer the same.

Two changes to a call leave what it infers alone. An argument may be widened to the
ancestor that is looked up for its parameter type. That ancestor is looked up to itself, so
every place has the same value or fault as before, and with them everything that is
inferred (`infer_of_widened`).

And parameters may be reordered together with their arguments. Other places come first
then, so faults may be reported in place of others and candidates in another order. But
whether there is a fault, and which candidates there are, is the same, and what they agree on
depends on the set of them only, since chains of bases have no cycles
(`infer_of_reordered`).
-/
import Generics.Proofs.Ancestor.Coherence
import Generics.Proofs.Inference.Specification

namespace Generics.Catalog

open Relation

/-! ## 1. What calls depend on -/

section

variable {c : Catalog} {options : InferenceOptions}
  {params params' arguments arguments' : List TypeId}

theorem evaluateAll_congr {os : List ParameterOccurrence}
    (h : ∀ o ∈ os, c.evaluateAt? o arguments = c.evaluateAt? o arguments') :
    c.evaluateAll arguments os = c.evaluateAll arguments' os := by
  induction os with
  | nil => rfl
  | cons o rest ih =>
    rw [evaluateAll, evaluateAll, h o List.mem_cons_self,
      ih fun x hx => h x (List.mem_cons_of_mem _ hx)]

/-- Equal results for all type parameters make equal bindings and failures. -/
theorem inferEach_congr {typeParams : List TypeId} {position : Nat}
    (h : ∀ p ∈ typeParams, c.inferParameter options params arguments p =
      c.inferParameter options params' arguments' p) :
    c.inferEach options params arguments position typeParams =
      c.inferEach options params' arguments' position typeParams := by
  induction typeParams generalizing position with
  | nil => rfl
  | cons p rest ih =>
    rw [inferEach, inferEach, h p List.mem_cons_self,
      ih fun q hq => h q (List.mem_cons_of_mem _ hq)]

/-- If the same type parameters have results, and the same ones, the bindings are equal and
so are the failures but for their reasons. -/
theorem inferEach_of_ok_iff (position : Nat) {typeParams : List TypeId}
    (h : ∀ p ∈ typeParams, ∀ id, c.inferParameter options params arguments p = .ok id ↔
      c.inferParameter options params' arguments' p = .ok id) :
    (c.inferEach options params arguments position typeParams).1 =
        (c.inferEach options params' arguments' position typeParams).1 ∧
      (c.inferEach options params arguments position typeParams).2.map
          (fun f => (f.parameter, f.position)) =
        (c.inferEach options params' arguments' position typeParams).2.map
          fun f => (f.parameter, f.position) := by
  induction typeParams generalizing position with
  | nil => exact ⟨rfl, rfl⟩
  | cons p rest ih =>
    obtain ⟨hbindings, hfailures⟩ :=
      ih (position + 1) fun q hq => h q (List.mem_cons_of_mem _ hq)
    have hp := h p List.mem_cons_self
    rw [inferEach, inferEach]
    cases hresult : c.inferParameter options params arguments p with
    | ok id => simp [(hp id).mp hresult, hbindings, hfailures]
    | error reason =>
      cases hresult' : c.inferParameter options params' arguments' p with
      | ok id => cases hresult.symm.trans ((hp id).mpr hresult')
      | error reason' => simp [hbindings, hfailures]

end

/-! ## 2. Widened arguments -/

section

variable {c : Catalog} {h : Hierarchy} {params arguments : List TypeId}
  {param argument ancestor : TypeId} {i : Nat}

/-- At a place, an argument and its ancestor of the shape have the same value or fault. -/
theorem WellFormed.evaluate_ancestor (hc : c.WellFormed) (hfinish : c.finish = .ok h)
    (hfound : h.catalog.ancestor? argument (h.catalog.unbound param) = .ok (some ancestor))
    (path : List Nat) :
    h.catalog.evaluate ⟨param, path⟩ ancestor = h.catalog.evaluate ⟨param, path⟩ argument := by
  simp only [evaluate, hfound, hc.ancestor?_idem hfinish hfound]

/-- A type parameter has the same result after an argument was widened. -/
theorem WellFormed.inferParameter_of_widened (hc : c.WellFormed) (hfinish : c.finish = .ok h)
    (options : InferenceOptions) (hparam : params[i]? = some param)
    (hargument : arguments[i]? = some argument)
    (hfound : h.catalog.ancestor? argument (h.catalog.unbound param) = .ok (some ancestor))
    (p : TypeId) :
    h.catalog.inferParameter options params (arguments.set i ancestor) p =
      h.catalog.inferParameter options params arguments p := by
  rw [inferParameter, inferParameter, evaluateAll_congr fun o ho => ?_]
  obtain ⟨j, param', path, hparam', -, rfl⟩ :=
    (hc.of_finish hfinish).mem_parameterOccurrences.mp ho
  simp only [evaluateAt?]
  by_cases heq : i = j
  · subst heq
    cases hparam.symm.trans hparam'
    obtain ⟨hlt, -⟩ := List.getElem?_eq_some_iff.mp hargument
    rw [List.getElem?_set_self hlt, hargument, Option.map_some, Option.map_some,
      hc.evaluate_ancestor hfinish hfound]
  · rw [List.getElem?_set_ne heq]

end

/-- Widening an argument changes nothing. In a call of a generic method with the right number
of arguments, let the argument number `i` be replaced by the ancestor that is looked up for
its parameter type. Either both calls succeed, with the same result, or both fail, with
the same failures; they differ at most in the arguments that the error shows. -/
theorem infer_of_widened {c : Catalog} {h : Hierarchy} (hc : c.Reachable)
    (hfinish : c.finish = .ok h) (options : InferenceOptions) (method : Method)
    (arguments : List TypeId) (hgeneric : method.isGeneric = true)
    (hcount : method.params.length = arguments.length) {i : Nat} {param argument ancestor : TypeId}
    (hparam : method.params[i]? = some param) (hargument : arguments[i]? = some argument)
    (hfound : h.catalog.ancestor? argument (h.catalog.unbound param) = .ok (some ancestor)) :
    (∃ result, h.catalog.infer options method arguments = .ok result ∧
      h.catalog.infer options method (arguments.set i ancestor) = .ok result) ∨
    ∃ failures, h.catalog.infer options method arguments =
        .error (.failed method.name (h.catalog.displayAll arguments) failures) ∧
      h.catalog.infer options method (arguments.set i ancestor) =
        .error (.failed method.name (h.catalog.displayAll (arguments.set i ancestor))
          failures) := by
  have hcount' : method.params.length = (arguments.set i ancestor).length := by
    rw [List.length_set, hcount]
  have hsame : h.catalog.inferEach options method.params (arguments.set i ancestor) 0
        method.typeParams =
      h.catalog.inferEach options method.params arguments 0 method.typeParams :=
    inferEach_congr fun p _ =>
      hc.wellFormed.inferParameter_of_widened hfinish options hparam hargument hfound p
  cases hinfer : h.catalog.infer options method arguments with
  | ok result =>
    refine .inl ⟨result, rfl, (infer_ok_iff hgeneric hcount').mpr ?_⟩
    rw [hsame]
    exact (infer_ok_iff hgeneric hcount).mp hinfer
  | error e =>
    obtain ⟨hsome, rfl⟩ := (infer_error_iff hgeneric hcount).mp hinfer
    refine .inr ⟨_, rfl, (infer_error_iff hgeneric hcount').mpr ?_⟩
    rw [hsame]
    exact ⟨hsome, rfl⟩

/-- A method with a parameter of the type `Box<U>` infers `string` from a `Box<string>` as it does
from a `Derived<string>`. -/
theorem infer_of_widened_boxes :
    (boxes.Reachable ∧ boxes.finish = .ok ⟨boxesFinished⟩ ∧
      boxesFinished.ancestor? ⟨6⟩ (boxesFinished.unbound ⟨4⟩) = .ok (some ⟨7⟩)) ∧
    boxesFinished.infer ⟨.exact⟩ ⟨"unbox", [⟨3⟩], [⟨4⟩]⟩ [⟨6⟩] = .ok ⟨"unbox", [(⟨3⟩, ⟨5⟩)]⟩ ∧
    boxesFinished.infer ⟨.exact⟩ ⟨"unbox", [⟨3⟩], [⟨4⟩]⟩ [⟨7⟩] = .ok ⟨"unbox", [(⟨3⟩, ⟨5⟩)]⟩ := by
  have hplaces : boxesFinished.parameterOccurrences [⟨4⟩] ⟨3⟩ = [⟨0, ⟨⟨4⟩, [0]⟩⟩] := by
    have hbox : boxesFinished.args ⟨4⟩ = [⟨3⟩] := rfl
    simp [parameterOccurrences, occurrences, pushArguments, hbox]
  have hvalues : boxesFinished.evaluateAll [⟨6⟩] [⟨0, ⟨⟨4⟩, [0]⟩⟩] = .ok [⟨5⟩] := rfl
  have hinfer : boxesFinished.infer ⟨.exact⟩ ⟨"unbox", [⟨3⟩], [⟨4⟩]⟩ [⟨6⟩] =
      .ok ⟨"unbox", [(⟨3⟩, ⟨5⟩)]⟩ := by
    simp only [infer, inferEach, inferParameter, hplaces, hvalues, distinct_eq_eraseDups]
    rfl
  have hfound : boxesFinished.ancestor? ⟨6⟩ (boxesFinished.unbound ⟨4⟩) = .ok (some ⟨7⟩) := rfl
  refine ⟨⟨reachable_boxes, finish_boxes, hfound⟩, hinfer, ?_⟩
  rcases infer_of_widened reachable_boxes finish_boxes ⟨.exact⟩ ⟨"unbox", [⟨3⟩], [⟨4⟩]⟩ [⟨6⟩]
    rfl rfl (i := 0) rfl rfl hfound with ⟨result, hok, hwidened⟩ | ⟨failures, herror, -⟩
  · cases hinfer.symm.trans hok
    exact hwidened
  · cases hinfer.symm.trans herror

/-! ## 3. Reordered parameters -/

/-- At some place of `p` the look-up in the argument comes out as `result`. -/
def Evaluates (c : Catalog) (params arguments : List TypeId) (p : TypeId)
    (result : Except LookupError TypeId) : Prop :=
  ∃ pair ∈ params.zip arguments, ∃ path ∈ c.pathsTo p pair.1,
    c.evaluate ⟨pair.1, path⟩ pair.2 = result

section

variable {c : Catalog} {params arguments params' arguments' : List TypeId} {p : TypeId}

theorem evaluates_of_perm (hperm : (params'.zip arguments').Perm (params.zip arguments))
    (result : Except LookupError TypeId) :
    c.Evaluates params' arguments' p result ↔ c.Evaluates params arguments p result := by
  simp only [Evaluates, hperm.mem_iff]

theorem WellFormed.evaluates_iff (hc : c.WellFormed) {result : Except LookupError TypeId} :
    c.Evaluates params arguments p result ↔
      ∃ o ∈ c.parameterOccurrences params p, c.evaluateAt? o arguments = some result := by
  simp only [hc.mem_parameterOccurrences]
  constructor
  · rintro ⟨⟨param, argument⟩, hpair, path, hpath, rfl⟩
    obtain ⟨i, hi⟩ := List.getElem?_of_mem hpair
    obtain ⟨hparam, hargument⟩ := List.getElem?_zip_eq_some.mp hi
    refine ⟨⟨i, param, path⟩, ⟨i, param, path, hparam, hpath, rfl⟩, ?_⟩
    rw [evaluateAt?, hargument, Option.map_some]
  · rintro ⟨_, ⟨i, param, path, hparam, hpath, rfl⟩, hresult⟩
    obtain ⟨argument, hargument, rfl⟩ := Option.map_eq_some_iff.mp hresult
    exact ⟨(param, argument),
      List.mem_of_getElem? (List.getElem?_zip_eq_some.mpr ⟨hparam, hargument⟩), path, hpath, rfl⟩

/-- If no look-up fails, the values of all places are what look-ups come out as. -/
theorem WellFormed.evaluates_of_evaluateAll_ok (hc : c.WellFormed)
    (hcount : params.length = arguments.length) {ids : List TypeId}
    (hok : c.evaluateAll arguments (c.parameterOccurrences params p) = .ok ids) :
    (∀ id, id ∈ ids ↔ c.Evaluates params arguments p (.ok id)) ∧
      ∀ e, ¬ c.Evaluates params arguments p (.error e) := by
  have hall := (evaluateAll_cases fun o ho => hc.lt_of_mem_parameterOccurrences ho hcount).1 ids hok
  have hresult : ∀ {result}, c.Evaluates params arguments p result ↔
      some result ∈ ids.map fun id => some (.ok id) := by
    intro result
    rw [hc.evaluates_iff, ← hall, List.mem_map]
  exact ⟨fun id => by simp [hresult], fun e => by simp [hresult]⟩

theorem WellFormed.evaluates_of_evaluateAll_error (hc : c.WellFormed)
    (hcount : params.length = arguments.length) {e : LookupError}
    (herror : c.evaluateAll arguments (c.parameterOccurrences params p) = .error e) :
    c.Evaluates params arguments p (.error e) := by
  obtain ⟨before, o, after, hos, -, hfail⟩ :=
    (evaluateAll_cases fun o ho => hc.lt_of_mem_parameterOccurrences ho hcount).2 e herror
  exact hc.evaluates_iff.mpr ⟨o, by rw [hos]; simp, hfail⟩

end

section

variable {c : Catalog} {h : Hierarchy} {options : InferenceOptions}
  {params arguments params' arguments' : List TypeId} {a b p id : TypeId}

/-- Candidates that agree stand for one type. -/
theorem WellFormed.agreeOn_unique (hc : c.WellFormed) (hfinish : c.finish = .ok h)
    {S : TypeId → Prop} (hagree : h.catalog.Agree options S) (ha : h.catalog.AgreeOn options S a)
    (hb : h.catalog.AgreeOn options S b) : a = b := by
  rcases options with ⟨_ | _⟩
  · exact hagree a b ha hb
  · exact hc.nearestCommonBase_unique hfinish ha hb

/-- What becomes of candidates does not depend on their order. -/
theorem WellFormed.reconcile_of_same (hc : c.WellFormed) (hfinish : c.finish = .ok h)
    {values values' : List TypeId} (hnodup : values.Nodup) (hnodup' : values'.Nodup)
    (hsame : ∀ x, x ∈ values' ↔ x ∈ values)
    (hok : h.catalog.reconcile options values = .ok id) :
    h.catalog.reconcile options values' = .ok id := by
  rcases hc.reconcile_cases options hfinish hnodup (fun _ => Iff.rfl) with
    ⟨-, hresult⟩ | ⟨hne, hagree, x, hresult, hx⟩ | ⟨-, -, hresult⟩
  · cases hok.symm.trans hresult
  · cases hok.symm.trans hresult
    obtain ⟨v, hv⟩ := List.exists_mem_of_ne_nil _ hne
    rcases hc.reconcile_cases options hfinish hnodup' hsame with
      ⟨hnil, -⟩ | ⟨-, -, y, hresult', hy⟩ | ⟨-, hdisagree, -⟩
    · have hv' := (hsame v).mpr hv
      rw [hnil] at hv'
      cases hv'
    · rw [hresult', hc.agreeOn_unique hfinish hagree hx hy]
    · exact absurd hagree hdisagree
  · cases hok.symm.trans hresult

/-- What is inferred for a type parameter depends on what look-ups come out as. -/
theorem WellFormed.inferParameter_of_same (hc : c.WellFormed) (hfinish : c.finish = .ok h)
    (hcount : params.length = arguments.length) (hcount' : params'.length = arguments'.length)
    (hsame : ∀ result, h.catalog.Evaluates params' arguments' p result ↔
      h.catalog.Evaluates params arguments p result)
    (hok : h.catalog.inferParameter options params arguments p = .ok id) :
    h.catalog.inferParameter options params' arguments' p = .ok id := by
  have hfinished := hc.of_finish hfinish
  rw [inferParameter] at hok ⊢
  cases hall : h.catalog.evaluateAll arguments (h.catalog.parameterOccurrences params p) with
  | error e =>
    rw [hall] at hok
    cases hok
  | ok ids =>
    obtain ⟨hids, hnone⟩ := hfinished.evaluates_of_evaluateAll_ok hcount hall
    cases hall' : h.catalog.evaluateAll arguments' (h.catalog.parameterOccurrences params' p) with
    | error e =>
      have hfault := (hsame _).mp (hfinished.evaluates_of_evaluateAll_error hcount' hall')
      exact absurd hfault (hnone e)
    | ok ids' =>
      obtain ⟨hids', -⟩ := hfinished.evaluates_of_evaluateAll_ok hcount' hall'
      simp only [hall, distinct_eq_eraseDups] at hok ⊢
      refine hc.reconcile_of_same hfinish (nodup_eraseDups ids) (nodup_eraseDups ids') ?_ hok
      intro x
      rw [List.mem_eraseDups, List.mem_eraseDups, hids, hids', hsame]

end

/-- The order of parameters does not matter. In a call of a generic method with the right
number of arguments, let the parameter types be reordered and the arguments with them. One
call succeeds exactly if the other does, with the same result, and if they fail they fail
at the same type parameters. -/
theorem infer_of_reordered {c : Catalog} {h : Hierarchy} (hc : c.Reachable)
    (hfinish : c.finish = .ok h) (options : InferenceOptions) (method : Method)
    (arguments params' arguments' : List TypeId) (hgeneric : method.isGeneric = true)
    (hcount : method.params.length = arguments.length)
    (hcount' : params'.length = arguments'.length)
    (hperm : (params'.zip arguments').Perm (method.params.zip arguments)) :
    (∀ result, h.catalog.infer options { method with params := params' } arguments' = .ok result ↔
      h.catalog.infer options method arguments = .ok result) ∧
    ∀ e e', h.catalog.infer options method arguments = .error e →
      h.catalog.infer options { method with params := params' } arguments' = .error e' →
      e'.failures.map (fun f => (f.parameter, f.position)) =
        e.failures.map fun f => (f.parameter, f.position) := by
  have hresults : ∀ p id, h.catalog.inferParameter options params' arguments' p = .ok id ↔
      h.catalog.inferParameter options method.params arguments p = .ok id := fun p id =>
    ⟨hc.wellFormed.inferParameter_of_same hfinish hcount' hcount (evaluates_of_perm hperm.symm),
      hc.wellFormed.inferParameter_of_same hfinish hcount hcount' (evaluates_of_perm hperm)⟩
  obtain ⟨hbindings, hfailures⟩ := inferEach_of_ok_iff 0
    fun p (_ : p ∈ method.typeParams) => hresults p
  have hnone : (h.catalog.inferEach options params' arguments' 0 method.typeParams).2 = [] ↔
      (h.catalog.inferEach options method.params arguments 0 method.typeParams).2 = [] := by
    rw [← List.map_eq_nil_iff, hfailures, List.map_eq_nil_iff]
  have hgeneric' : Method.isGeneric { method with params := params' } = true := hgeneric
  constructor
  · intro result
    rw [infer_ok_iff hgeneric hcount, infer_ok_iff hgeneric' hcount']
    simp only [hnone, hbindings]
  · intro e e' herror herror'
    obtain ⟨-, rfl⟩ := (infer_error_iff hgeneric hcount).mp herror
    obtain ⟨-, rfl⟩ := (infer_error_iff hgeneric' hcount').mp herror'
    exact hfailures

/-- A method with two parameters of the type `U`, called with a `Derived<string>` and a
`Box<string>`: `U` is bound to the second, which is the base of the first, in either order. -/
theorem infer_of_reordered_boxes :
    (boxes.Reachable ∧ boxes.finish = .ok ⟨boxesFinished⟩ ∧
      ([(⟨3⟩ : TypeId), ⟨3⟩].zip [(⟨7⟩ : TypeId), ⟨6⟩]).Perm
        ([(⟨3⟩ : TypeId), ⟨3⟩].zip [(⟨6⟩ : TypeId), ⟨7⟩])) ∧
    boxesFinished.infer ⟨.nearestCommonBase⟩ ⟨"join", [⟨3⟩], [⟨3⟩, ⟨3⟩]⟩ [⟨6⟩, ⟨7⟩] =
      .ok ⟨"join", [(⟨3⟩, ⟨7⟩)]⟩ ∧
    boxesFinished.infer ⟨.nearestCommonBase⟩ ⟨"join", [⟨3⟩], [⟨3⟩, ⟨3⟩]⟩ [⟨7⟩, ⟨6⟩] =
      .ok ⟨"join", [(⟨3⟩, ⟨7⟩)]⟩ := by
  have hplaces : boxesFinished.parameterOccurrences [⟨3⟩, ⟨3⟩] ⟨3⟩ =
      [⟨0, ⟨⟨3⟩, []⟩⟩, ⟨1, ⟨⟨3⟩, []⟩⟩] := by
    simp [parameterOccurrences, occurrences]
  have hvalues : boxesFinished.evaluateAll [⟨6⟩, ⟨7⟩] [⟨0, ⟨⟨3⟩, []⟩⟩, ⟨1, ⟨⟨3⟩, []⟩⟩] =
      .ok [⟨6⟩, ⟨7⟩] := rfl
  have hcommon : boxesFinished.nearestCommonBase? [⟨6⟩, ⟨7⟩] = some ⟨7⟩ := by
    rw [nearestCommonBase?_cons]
    rfl
  have hdistinct : [(⟨6⟩ : TypeId), ⟨7⟩].eraseDups = [⟨6⟩, ⟨7⟩] := rfl
  have hinfer : boxesFinished.infer ⟨.nearestCommonBase⟩ ⟨"join", [⟨3⟩], [⟨3⟩, ⟨3⟩]⟩ [⟨6⟩, ⟨7⟩] =
      .ok ⟨"join", [(⟨3⟩, ⟨7⟩)]⟩ := by
    simp only [infer, inferEach, inferParameter, hplaces, hvalues, distinct_eq_eraseDups, hdistinct,
      reconcile, hcommon]
    rfl
  have hperm : ([(⟨3⟩ : TypeId), ⟨3⟩].zip [(⟨7⟩ : TypeId), ⟨6⟩]).Perm
      ([(⟨3⟩ : TypeId), ⟨3⟩].zip [(⟨6⟩ : TypeId), ⟨7⟩]) := .swap _ _ _
  obtain ⟨hresult, -⟩ := infer_of_reordered reachable_boxes finish_boxes ⟨.nearestCommonBase⟩
    ⟨"join", [⟨3⟩], [⟨3⟩, ⟨3⟩]⟩ [⟨6⟩, ⟨7⟩] [⟨3⟩, ⟨3⟩] [⟨7⟩, ⟨6⟩] rfl rfl rfl hperm
  exact ⟨⟨reachable_boxes, finish_boxes, hperm⟩, hinfer, (hresult _).mpr hinfer⟩

end Generics.Catalog

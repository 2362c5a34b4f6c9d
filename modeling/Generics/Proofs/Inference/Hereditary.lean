/-
Generics.Proofs.Inference.Hereditary — what bound types take over from the arguments.

A property of types is hereditary if a type passes it on to what it inherits and to its
own arguments. Inference goes nowhere else: a value stands in an argument of the call, or
in an ancestor of it, and a common base is a base of a value. So a hereditary property
of all arguments of a call is one of all types that the call binds (`of_mem_bindings`).

In a finished catalogue being closed is hereditary (`infer_closed`).
-/
import Generics.Proofs.Hierarchy.Closed
import Generics.Proofs.Inference.Specification

namespace Generics.Catalog

open Relation

/-- A type that has the property passes it on to its links and its arguments. -/
structure Hereditary (c : Catalog) (P : TypeId → Prop) : Prop where
  inherits : ∀ {id link}, P id → c.Inherits id link → P link
  arg : ∀ {id a}, P id → a ∈ c.args id → P a

namespace Hereditary

variable {c : Catalog} {P : TypeId → Prop} {id x : TypeId}

/-! ## 1. Places -/

theorem of_mem_selfAndBases (h : c.Hereditary P) (hid : P id) (hx : x ∈ c.selfAndBases id) :
    P x := by
  have habove : ReflTransGen c.BaseOf id x := by
    rcases List.mem_cons.mp hx with rfl | hx
    · exact .refl
    · exact reflTransGen_of_mem_basesWithin hx
  clear hx
  induction habove with
  | refl => exact hid
  | tail _ hbase ih => exact h.inherits ih (.inl hbase)

theorem of_mem_ancestors (h : c.Hereditary P) (hid : P id)
    (hx : x ∈ c.selfAndBases id ++ c.interfaces id) : P x := by
  rcases List.mem_append.mp hx with hchain | hi
  · exact h.of_mem_selfAndBases hid hchain
  · exact h.inherits hid (.inr hi)

theorem of_mem_ancestorsOfShape (h : c.Hereditary P) {shape : TypeId} (hid : P id)
    (hx : x ∈ c.ancestorsOfShape id shape) : P x :=
  h.of_mem_ancestors hid (List.mem_filter.mp (List.mem_eraseDups.mp hx)).1

theorem of_ancestor? (h : c.Hereditary P) {shape : TypeId} (hid : P id)
    (hok : c.ancestor? id shape = .ok (some x)) : P x := by
  rw [ancestor?] at hok
  split at hok
  · cases hok
    exact hid
  · split at hok
    · cases hok
    · rename_i single hsingle
      cases hok
      exact h.of_mem_ancestorsOfShape hid (by rw [hsingle]; exact List.mem_singleton_self _)
    · cases hok

theorem of_leads (h : c.Hereditary P) {path : List Nat} (hid : P id) (hleads : c.Leads id path x) :
    P x := by
  induction hleads with
  | here => exact hid
  | into ha _ ih => exact ih (h.arg hid (List.mem_of_getElem? ha))

theorem of_evaluate (h : c.Hereditary P) {o : Occurrence} (hid : P id)
    (hok : c.evaluate o id = .ok x) : P x := by
  simp only [evaluate] at hok
  rcases hancestor : c.ancestor? id (c.unbound o.root) with e | _ | ancestor
  · simp [hancestor] at hok
  · simp [hancestor] at hok
  · simp only [hancestor] at hok
    exact h.of_leads (h.of_ancestor? hid hancestor) (descend_eq_ok_iff.mp hok)

theorem of_evaluateAll (h : c.Hereditary P) {arguments : List TypeId}
    (harguments : ∀ a ∈ arguments, P a) {os : List ParameterOccurrence} {ids : List TypeId}
    (hok : c.evaluateAll arguments os = .ok ids) : ∀ x ∈ ids, P x := by
  induction os generalizing ids with
  | nil =>
    cases hok
    simp
  | cons o rest ih =>
    rw [evaluateAll, evaluateAt?] at hok
    cases harg : arguments[o.parameter]? with
    | none =>
      simp only [harg, Option.map_none] at hok
      exact ih hok
    | some argument =>
      simp only [harg, Option.map_some] at hok
      cases hvalue : c.evaluate o.occurrence argument with
      | error e => simp [hvalue] at hok
      | ok id =>
        cases hall : c.evaluateAll arguments rest with
        | error e => simp [hvalue, hall, Except.map] at hok
        | ok others =>
          simp only [hvalue, hall, Except.map, Except.ok.injEq] at hok
          subst hok
          have hid := h.of_evaluate (harguments argument (List.mem_of_getElem? harg)) hvalue
          exact List.forall_mem_cons.mpr ⟨hid, ih hall⟩

/-! ## 2. Calls -/

section

variable {options : InferenceOptions} {arguments : List TypeId}

theorem of_reconcile (h : c.Hereditary P) {ids : List TypeId} (hids : ∀ x ∈ ids, P x)
    (hok : c.reconcile options ids = .ok id) : P id := by
  rcases ids with _ | ⟨a, _ | ⟨b, rest⟩⟩
  · cases hok
  · cases hok
    exact hids id List.mem_cons_self
  · cases hmode : options.reconciliation with
    | exact => simp [reconcile, hmode] at hok
    | nearestCommonBase =>
      cases hcommon : c.nearestCommonBase? (a :: b :: rest) with
      | none => simp [reconcile, hmode, hcommon] at hok
      | some common =>
        simp only [reconcile, hmode, hcommon, Except.ok.injEq] at hok
        rw [nearestCommonBase?_cons] at hcommon
        have hmem := List.mem_of_find?_eq_some hcommon
        exact hok ▸ h.of_mem_selfAndBases (hids a List.mem_cons_self) hmem

theorem of_inferParameter (h : c.Hereditary P) {params : List TypeId} {p : TypeId}
    (harguments : ∀ a ∈ arguments, P a)
    (hok : c.inferParameter options params arguments p = .ok id) : P id := by
  rw [inferParameter] at hok
  cases hall : c.evaluateAll arguments (c.parameterOccurrences params p) with
  | error e => simp [hall] at hok
  | ok ids =>
    simp only [hall, distinct_eq_eraseDups] at hok
    have hids := h.of_evaluateAll harguments hall
    exact h.of_reconcile (fun x hx => hids x (List.mem_eraseDups.mp hx)) hok

/-- A property of all arguments of a call is one of all types that it binds. -/
theorem of_mem_bindings (h : c.Hereditary P) {m : Method} {i : Inference}
    (harguments : ∀ a ∈ arguments, P a) (hok : c.infer options m arguments = .ok i)
    {b : TypeId × TypeId} (hb : b ∈ i.bindings) : b.1 ∈ m.typeParams ∧ P b.2 := by
  by_cases hgeneric : m.isGeneric = true
  · by_cases hcount : m.params.length = arguments.length
    · obtain ⟨hnone, rfl⟩ := (infer_ok_iff hgeneric hcount).mp hok
      obtain ⟨hfirst, hbound⟩ := bindings_of_no_failures hnone
      exact ⟨hfirst ▸ List.mem_map_of_mem hb, h.of_inferParameter harguments (hbound b hb)⟩
    · simp [infer, hgeneric, hcount] at hok
  · simp only [infer, hgeneric, Bool.not_false, if_pos, Except.ok.injEq] at hok
    subst hok
    cases hb

end

end Hereditary

/-! ## 3. Closed types -/

/-- In a finished catalogue whose declared links mention no foreign type parameters, being
closed is hereditary. -/
theorem WellFormed.hereditary_closed {c : Catalog} {h : Hierarchy} (hc : c.WellFormed)
    (hfinish : c.finish = .ok h) (hscoped : c.Scoped) : h.catalog.Hereditary h.catalog.Closed where
  inherits hx hlink := hc.closed_of_inherits hfinish hscoped hx hlink
  arg hx ha := hx.arg ha

/-- Closed arguments give closed bindings. Where no declared link mentions a type parameter
other than those of the type that declares it, a call whose argument types are closed
binds closed types only, for every method and in both ways of reconciling candidates, and
all ancestors of these argument types are closed. -/
theorem infer_closed {c : Catalog} {h : Hierarchy} (hc : c.Reachable) (hfinish : c.finish = .ok h)
    (hscoped : c.Scoped) {arguments : List TypeId}
    (hclosed : ∀ a ∈ arguments, h.catalog.Closed a) :
    (∀ options method result, h.catalog.infer options method arguments = .ok result →
      ∀ b ∈ result.bindings, h.catalog.Closed b.2) ∧
    ∀ a ∈ arguments, ∀ x ∈ h.catalog.selfAndBases a ++ h.catalog.interfaces a,
      h.catalog.Closed x := by
  have hereditary := hc.wellFormed.hereditary_closed hfinish hscoped
  constructor
  · intro options method result hok b hb
    exact (hereditary.of_mem_bindings hclosed hok hb).2
  · intro a ha x hx
    exact hereditary.of_mem_ancestors (hclosed a ha) hx

/-- A method with a parameter of the type `Box<U>`, called with a `Derived<string>`: both
what is bound, `string`, and the base `Box<string>` are closed. -/
theorem infer_closed_boxes :
    (boxes.Reachable ∧ boxes.finish = .ok ⟨boxesFinished⟩ ∧ boxes.Scoped ∧
      ∀ a ∈ [(⟨6⟩ : TypeId)], boxesFinished.Closed a) ∧
    boxesFinished.infer ⟨.nearestCommonBase⟩ ⟨"unbox", [⟨3⟩], [⟨4⟩]⟩ [⟨6⟩] =
      .ok ⟨"unbox", [(⟨3⟩, ⟨5⟩)]⟩ ∧
    boxesFinished.Closed ⟨5⟩ ∧ boxesFinished.Closed ⟨7⟩ := by
  have hclosed : ∀ a ∈ [(⟨6⟩ : TypeId)], boxesFinished.Closed a := by
    intro a ha
    cases List.mem_singleton.mp ha
    refine closed_of_args rfl fun b hb => ?_
    cases List.mem_singleton.mp hb
    exact closed_of_args rfl nofun
  have hplaces : boxesFinished.parameterOccurrences [⟨4⟩] ⟨3⟩ = [⟨0, ⟨⟨4⟩, [0]⟩⟩] := by
    have hbox : boxesFinished.args ⟨4⟩ = [⟨3⟩] := rfl
    simp [parameterOccurrences, occurrences, pushArguments, hbox]
  have hvalues : boxesFinished.evaluateAll [⟨6⟩] [⟨0, ⟨⟨4⟩, [0]⟩⟩] = .ok [⟨5⟩] := rfl
  have hinfer : boxesFinished.infer ⟨.nearestCommonBase⟩ ⟨"unbox", [⟨3⟩], [⟨4⟩]⟩ [⟨6⟩] =
      .ok ⟨"unbox", [(⟨3⟩, ⟨5⟩)]⟩ := by
    simp only [infer, inferEach, inferParameter, hplaces, hvalues, distinct_eq_eraseDups]
    rfl
  obtain ⟨hbound, habove⟩ := infer_closed reachable_boxes finish_boxes scoped_boxes hclosed
  exact ⟨⟨reachable_boxes, finish_boxes, scoped_boxes, hclosed⟩, hinfer,
    hbound _ _ _ hinfer (⟨3⟩, ⟨5⟩) List.mem_cons_self,
    habove ⟨6⟩ List.mem_cons_self ⟨7⟩ (by decide)⟩

end Generics.Catalog

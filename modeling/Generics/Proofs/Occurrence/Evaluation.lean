/-
Generics.Proofs.Occurrence.Evaluation — how the evaluation of an occurrence can fail.

Evaluation matches the root of an occurrence with an ancestor of the concrete type and goes
down from there. A root that has arguments is matched by its definition, and all types of
one definition have equally many arguments (`WellFormed.length_args_of_ancestor?`). So the
first step of a path that was found in the root leads somewhere, and what can fail after
a match are the steps after it.
-/
import Generics.Proofs.Ancestor
import Generics.Proofs.Occurrence.Exactness

namespace Generics.Catalog

/-! ## 1. What evaluation does -/

/-- The evaluation of an occurrence ends at one of the two failures to match its root, or
goes down from the ancestor that was matched. -/
inductive Evaluated (c : Catalog) (o : Occurrence) (concrete : TypeId) :
    Except LookupError TypeId → Prop
  | unmatched (h : c.ancestor? concrete (c.unbound o.root) = .ok none) :
      Evaluated c o concrete (.error (.noMatchingAncestor concrete (c.unbound o.root)))
  | ambiguous {candidates : List TypeId}
      (h : c.ancestor? concrete (c.unbound o.root) =
        .error (.ambiguousAncestor concrete (c.unbound o.root) candidates)) :
      Evaluated c o concrete (.error (.ambiguousAncestor concrete (c.unbound o.root) candidates))
  | matched {start : TypeId} (h : c.ancestor? concrete (c.unbound o.root) = .ok (some start)) :
      Evaluated c o concrete (c.descend start 0 o.indices)

section

variable {c : Catalog} {o : Occurrence} {root target concrete start : TypeId}

theorem evaluated (c : Catalog) (o : Occurrence) (concrete : TypeId) :
    Evaluated c o concrete (c.evaluate o concrete) := by
  unfold evaluate
  cases hparam : c.isParameter (c.unbound o.root) with
  | true =>
    have hself : c.ancestor? concrete (c.unbound o.root) = .ok (some concrete) := by
      rw [ancestor?, if_pos hparam]
    simp only [hself]
    exact .matched hself
  | false =>
    rcases ancestor?_cases hparam concrete with
      ⟨-, hnone⟩ | ⟨a, -, hsome⟩ | ⟨a, b, rest, -, hseveral⟩
    · simp only [hnone]
      exact .unmatched hnone
    · simp only [hsome]
      exact .matched hsome
    · simp only [hseveral]
      exact .ambiguous hseveral

theorem evaluate_of_ancestor? (h : c.ancestor? concrete (c.unbound o.root) = .ok (some start)) :
    c.evaluate o concrete = c.descend start 0 o.indices := by
  simp only [evaluate, h]

/-! ## 2. The first step -/

/-- What is found for the definition of a type is a type of that definition. -/
theorem WellFormed.definition?_of_ancestor? (hc : c.WellFormed) {d : TypeId}
    (hdef : c.definition? root = some d)
    (h : c.ancestor? concrete (c.unbound root) = .ok (some start)) :
    c.definition? start = some d := by
  obtain ⟨params, hform, -⟩ := hc.form?_of_definition? hdef
  have hd : c.isDefinition d = true := isDefinition_iff.mpr ⟨params, hform⟩
  rw [unbound, hdef, Option.getD_some] at h
  rcases ancestor?_cases (not_isParameter_of_isDefinition hd) concrete with
    ⟨-, hnone⟩ | ⟨a, hlist, hsome⟩ | ⟨a, b, rest, -, hseveral⟩
  · cases hnone.symm.trans h
  · cases hsome.symm.trans h
    have hmem : start ∈ c.ancestorsOfShape concrete d := by rw [hlist]; exact List.mem_cons_self
    rw [ancestorsOfShape, List.mem_eraseDups, List.mem_filter, hasShape, if_pos hd,
      beq_iff_eq] at hmem
    exact hmem.2
  · cases hseveral.symm.trans h

/-- A generic type is matched with a type that has equally many arguments. -/
theorem WellFormed.length_args_of_ancestor? (hc : c.WellFormed) {d : TypeId}
    (hdef : c.definition? root = some d)
    (h : c.ancestor? concrete (c.unbound root) = .ok (some start)) :
    (c.args start).length = (c.args root).length := by
  obtain ⟨params, hform, hlength⟩ := hc.form?_of_definition? hdef
  obtain ⟨params', hform', hlength'⟩ :=
    hc.form?_of_definition? (hc.definition?_of_ancestor? hdef h)
  cases hform.symm.trans hform'
  rw [hlength, hlength']

/-- Below the root an occurrence begins with the index of an argument. -/
theorem WellFormed.exists_argument_of_mem_occurrences (hc : c.WellFormed) (hne : target ≠ root)
    (ho : o ∈ c.occurrences root target) :
    o.root = root ∧ (∃ d, c.definition? root = some d) ∧
      ∃ index rest, o.indices = index :: rest ∧ index < (c.args root).length := by
  obtain ⟨hroot, hleads⟩ := hc.mem_occurrences_iff.mp ho
  generalize o.indices = indices at hleads ⊢
  cases hleads with
  | here => exact absurd rfl hne
  | @into _ a _ index rest ha _ =>
    refine ⟨hroot, ?_, index, rest, rfl, (List.getElem?_eq_some_iff.mp ha).1⟩
    cases hdef : c.definition? root with
    | some d => exact ⟨d, rfl⟩
    | none =>
      rw [args_of_definition?_none hdef] at ha
      cases ha

/-- After a match, the first step of an occurrence below the root is taken. -/
theorem WellFormed.evaluate_eq_descend (hc : c.WellFormed) (hne : target ≠ root)
    (ho : o ∈ c.occurrences root target)
    (h : c.ancestor? concrete (c.unbound root) = .ok (some start)) :
    ∃ index rest next, o.indices = index :: rest ∧ (c.args start)[index]? = some next ∧
      c.evaluate o concrete = c.descend next 1 rest := by
  obtain ⟨hroot, ⟨d, hdef⟩, index, rest, hindices, hindex⟩ :=
    hc.exists_argument_of_mem_occurrences hne ho
  rw [← hc.length_args_of_ancestor? hdef h] at hindex
  have hnext := List.getElem?_eq_getElem hindex
  refine ⟨index, rest, _, hindices, hnext, ?_⟩
  rw [evaluate_of_ancestor? (by rwa [hroot]), hindices, descend_of_arg hnext]

/-! ## 3. Failures -/

/-- Where evaluation fails after a match: at a type that it comes to when a part of the path
is gone, and the next index is that of no argument of it. -/
theorem WellFormed.evaluate_error_cases (hc : c.WellFormed) (hne : target ≠ root)
    (ho : o ∈ c.occurrences root target) {e : LookupError}
    (h : c.evaluate o concrete = .error e) :
    e = .noMatchingAncestor concrete (c.unbound root) ∨
    (∃ candidates, e = .ambiguousAncestor concrete (c.unbound root) candidates) ∨
    ∃ start before index after type,
      c.ancestor? concrete (c.unbound root) = .ok (some start) ∧
      o.indices = before ++ index :: after ∧ before ≠ [] ∧ c.Leads start before type ∧
      (c.args type = [] ∧ e = .notGeneric type before.length ∨
        c.args type ≠ [] ∧ (c.args type).length ≤ index ∧ e = .noSuchArgument type index) := by
  obtain ⟨rfl, -⟩ := hc.mem_occurrences_iff.mp ho
  have hevaluated := evaluated c o concrete
  rw [h] at hevaluated
  generalize hresult : (Except.error e : Except LookupError TypeId) = result at hevaluated
  cases hevaluated with
  | unmatched => exact .inl (Except.error.inj hresult)
  | ambiguous => exact .inr (.inl ⟨_, Except.error.inj hresult⟩)
  | @matched start hmatched =>
    obtain ⟨first, rest, next, hindices, hnext, -⟩ := hc.evaluate_eq_descend hne ho hmatched
    obtain ⟨before, index, after, type, hpath, hleads, hcase⟩ :=
      descend_eq_error_iff.mp hresult.symm
    rw [Nat.zero_add] at hcase
    refine .inr (.inr ⟨start, before, index, after, type, hmatched, hpath, ?_, hleads, hcase⟩)
    -- at the matched type itself the first index is that of an argument
    rintro rfl
    cases hleads
    rw [hindices] at hpath
    cases hpath
    obtain ⟨hlt, -⟩ := List.getElem?_eq_some_iff.mp hnext
    rcases hcase with ⟨hnone, -⟩ | ⟨-, hle, -⟩
    · rw [hnone] at hlt
      cases hlt
    · omega

end

end Generics.Catalog

/-
Generics.Proofs.Ancestor.Coherence — ancestors that agree with each other.

Going up from a type, by bases and by listed interfaces in any mixture, never
leads back to its definition: declared inheritance has no cycle, and every link of
a finished catalogue follows declared ones from definition to definition
(`WellFormed.unbound_ne`). What a look-up of ancestors can be relied on for is a
consequence. It has one answer for a class, it finds a type under its own
definition, and what it finds it finds again.
-/
import Generics.Proofs.Ancestor

namespace Generics.Catalog

open Relation

section

variable {c : Catalog} {h : Hierarchy} {id a b d shape : TypeId}

/-! ## 1. No way back to a definition -/

/-- An ancestor is the type itself or something that it inherits from. -/
theorem Ancestor.eq_or_inherits (ha : c.Ancestor id a) : a = id ∨ TransGen c.Inherits id a := by
  rcases ha with habove | hmem
  · rcases reflTransGen_iff_eq_or_transGen.mp habove with heq | habove
    · exact .inl heq
    · exact .inr (inherits_of_above habove)
  · exact .inr (.single (.inr hmem))

/-- The only ancestor with the definition of a type is the type. -/
theorem WellFormed.eq_of_ancestor (hc : c.WellFormed) (hfinish : c.finish = .ok h)
    (ha : h.catalog.Ancestor id a) (heq : h.catalog.unbound a = h.catalog.unbound id) : a = id := by
  rcases ha.eq_or_inherits with hsame | hpath
  · exact hsame
  · exact absurd heq.symm (hc.unbound_ne hfinish hpath)

/-! ## 2. Chains of bases -/

/-- In a chain of bases each type stands below all that come after it. -/
theorem pairwise_basesWithin (c : Catalog) (steps : Nat) (id : TypeId) :
    (id :: c.basesWithin steps id).Pairwise (TransGen c.BaseOf) := by
  induction steps generalizing id with
  | zero => exact List.pairwise_singleton _ _
  | succ steps ih =>
    rw [basesWithin]
    cases hbase : c.base? id with
    | none => exact List.pairwise_singleton _ _
    | some base =>
      refine List.pairwise_cons.mpr ⟨fun b hb => ?_, ih base⟩
      have habove : ReflTransGen c.BaseOf base b := by
        rcases List.mem_cons.mp hb with rfl | hb
        · exact .refl
        · exact reflTransGen_of_mem_basesWithin hb
      exact .head' hbase habove

/-- A chain of bases has each definition once. -/
theorem WellFormed.nodup_unbound_selfAndBases (hc : c.WellFormed) (hfinish : c.finish = .ok h)
    (id : TypeId) : ((h.catalog.selfAndBases id).map h.catalog.unbound).Nodup := by
  refine List.pairwise_map.mpr ((pairwise_basesWithin h.catalog _ id).imp ?_)
  intro a b habove
  exact hc.unbound_ne hfinish (inherits_of_above habove)

/-! ## 3. Looking ancestors up -/

/-- A type that is neither open nor a parameter is looked up to itself, where it is
an ancestor. -/
theorem ancestor?_of_closed_shape (hparam : c.isParameter shape = false)
    (hopen : c.isDefinition shape = false) (id : TypeId) :
    c.ancestor? id shape =
      .ok (if shape ∈ c.selfAndBases id ++ c.interfaces id then some shape else none) := by
  have hshape : ∀ x, c.hasShape shape x = true ↔ x = shape := fun x => by simp [hasShape, hopen]
  rw [ancestor?, hparam, if_neg Bool.false_ne_true]
  by_cases hmem : shape ∈ c.selfAndBases id ++ c.interfaces id
  · have hsingle : c.ancestorsOfShape id shape = [shape] :=
      eraseDups_eq_singleton (List.mem_filter.mpr ⟨hmem, (hshape shape).mpr rfl⟩) fun x hx =>
        (hshape x).mp (List.mem_filter.mp hx).2
    rw [hsingle, if_pos hmem]
  · have hnone : c.ancestorsOfShape id shape = [] := by
      rw [ancestorsOfShape, List.filter_eq_nil_iff.mpr, List.eraseDups_nil]
      intro x hx hx'
      exact hmem ((hshape x).mp hx' ▸ hx)
    rw [hnone, if_neg hmem]

/-- Looking an open class up always has an answer. -/
theorem WellFormed.exists_ancestor?_of_class (hc : c.WellFormed) (hfinish : c.finish = .ok h)
    (hopen : h.catalog.isDefinition d = true) (hclass : h.catalog.kind? d = some .classType)
    (id : TypeId) : ∃ found, h.catalog.ancestor? id d = .ok found := by
  by_cases hsome : ∃ a, h.catalog.Ancestor id a ∧ h.catalog.definition? a = some d
  · obtain ⟨a, ha, hda⟩ := hsome
    exact ⟨some a, hc.ancestor?_of_unique hfinish hopen ha hda fun x hx hdx =>
      hc.ancestor_unique hfinish hclass ha hx hda hdx⟩
  · exact ⟨none, (hc.ancestor?_eq_none_iff hfinish hopen).mpr fun x hx hdx =>
      hsome ⟨x, hx, hdx⟩⟩

/-- A type is found under its own definition. -/
theorem WellFormed.ancestor?_unbound (hc : c.WellFormed) (hfinish : c.finish = .ok h)
    (id : TypeId) : h.catalog.ancestor? id (h.catalog.unbound id) = .ok (some id) := by
  cases hdef : h.catalog.definition? id with
  | some d =>
    obtain ⟨params, hform, -⟩ := (hc.of_finish hfinish).form?_of_definition? hdef
    rw [unbound, hdef, Option.getD_some]
    refine hc.ancestor?_of_unique hfinish (isDefinition_iff.mpr ⟨params, hform⟩) (.inl .refl) hdef
      fun x hx hdx => hc.eq_of_ancestor hfinish hx ?_
    simp [unbound, hdef, hdx]
  | none =>
    rw [unbound, hdef, Option.getD_none]
    cases hparam : h.catalog.isParameter id with
    | true => rw [ancestor?, hparam, if_pos rfl]
    | false =>
      have hclosed : h.catalog.isDefinition id = false := by
        refine Bool.eq_false_iff.mpr fun hopen => ?_
        obtain ⟨params, hform⟩ := isDefinition_iff.mp hopen
        rw [definition?_of_definition hform] at hdef
        cases hdef
      rw [ancestor?_of_closed_shape hparam hclosed, if_pos (by simp [selfAndBases])]

/-- What is found for a shape is found for it again. -/
theorem WellFormed.ancestor?_idem (hc : c.WellFormed) (hfinish : c.finish = .ok h)
    (hfound : h.catalog.ancestor? id shape = .ok (some a)) :
    h.catalog.ancestor? a shape = .ok (some a) := by
  cases hparam : h.catalog.isParameter shape with
  | true => rw [ancestor?, hparam, if_pos rfl]
  | false =>
    cases hopen : h.catalog.isDefinition shape with
    | true =>
      obtain ⟨-, hda, -⟩ := (hc.ancestor?_eq_some_iff hfinish hopen).mp hfound
      have hself := hc.ancestor?_unbound hfinish a
      rwa [unbound, hda, Option.getD_some] at hself
    | false =>
      rw [ancestor?_of_closed_shape hparam hopen] at hfound
      have hsame : a = shape := by
        split at hfound <;> cases hfound
        rfl
      subst hsame
      rw [ancestor?_of_closed_shape hparam hopen, if_pos (by simp [selfAndBases])]

end

/-- In a finished catalogue no two types of a chain of bases have one definition,
an open class is never ambiguous among the ancestors of a type, a type is found
under its own definition, and whatever is found for a shape is found for it from
there again. -/
theorem ancestors_coherent {c : Catalog} {h : Hierarchy} (hc : c.Reachable)
    (hfinish : c.finish = .ok h) :
    (∀ id, ((h.catalog.selfAndBases id).map h.catalog.unbound).Nodup) ∧
      (∀ id d, h.catalog.isDefinition d = true → h.catalog.kind? d = some .classType →
        ∃ found, h.catalog.ancestor? id d = .ok found) ∧
      (∀ id, h.catalog.ancestor? id (h.catalog.unbound id) = .ok (some id)) ∧
      ∀ id shape a, h.catalog.ancestor? id shape = .ok (some a) →
        h.catalog.ancestor? a shape = .ok (some a) := by
  have hwf := hc.wellFormed
  exact ⟨hwf.nodup_unbound_selfAndBases hfinish,
    fun id d hopen hclass => hwf.exists_ancestor?_of_class hfinish hopen hclass id,
    hwf.ancestor?_unbound hfinish,
    fun id shape a hfound => hwf.ancestor?_idem hfinish hfound⟩

/-- The chain above `Derived<string>` has two definitions, of which `Box<T>` is looked up to
`Box<string>`, from there too. -/
theorem ancestors_coherent_boxes :
    (boxes.Reachable ∧ boxes.finish = .ok ⟨boxesFinished⟩ ∧
      boxesFinished.isDefinition ⟨0⟩ = true ∧ boxesFinished.kind? ⟨0⟩ = some .classType ∧
      boxesFinished.ancestor? ⟨6⟩ ⟨0⟩ = .ok (some ⟨7⟩)) ∧
    [(⟨2⟩ : TypeId), ⟨0⟩].Nodup ∧
    (∃ found, boxesFinished.ancestor? ⟨6⟩ ⟨0⟩ = .ok found) ∧
    boxesFinished.ancestor? ⟨6⟩ ⟨2⟩ = .ok (some ⟨6⟩) ∧
    boxesFinished.ancestor? ⟨7⟩ ⟨0⟩ = .ok (some ⟨7⟩) := by
  obtain ⟨hnodup, hclass, hself, hidem⟩ := ancestors_coherent reachable_boxes finish_boxes
  have hfound : boxesFinished.ancestor? ⟨6⟩ ⟨0⟩ = .ok (some ⟨7⟩) := rfl
  exact ⟨⟨reachable_boxes, finish_boxes, rfl, rfl, hfound⟩, hnodup ⟨6⟩,
    hclass ⟨6⟩ ⟨0⟩ rfl rfl, hself ⟨6⟩, hidem ⟨6⟩ ⟨0⟩ ⟨7⟩ hfound⟩

end Generics.Catalog

/-
Generics.Proofs.Ancestor.CommonBase — the nearest common base does not depend on where
the search for it starts.

The search goes up from the first of several types and stops at the first one that is in
the chains of all others. Seen from another of them the way up is another. Still all of
them lead to the same type: chains of bases that meet go on together, and no chain comes
back to a type, so among the types that are in all chains one is below all others
(`nearestCommonBase?_eq_some_iff`). Nothing in this mentions an order of the types.
-/
import Generics.Proofs.Ancestor

namespace Generics.Catalog

section

variable {c : Catalog} {h : Hierarchy} {ids ids' : List TypeId} {b : TypeId}

/-- The search finds the nearest common base and nothing else. -/
theorem WellFormed.nearestCommonBase?_eq_some_iff (hc : c.WellFormed) (hfinish : c.finish = .ok h)
    (hne : ids ≠ []) :
    h.catalog.nearestCommonBase? ids = some b ↔ h.catalog.NearestCommonBase (· ∈ ids) b := by
  constructor
  · exact hc.nearestCommonBase?_some hfinish
  · intro hb
    cases hfound : h.catalog.nearestCommonBase? ids with
    | none => exact absurd ⟨b, hb.common⟩ (nearestCommonBase?_none hne hfound)
    | some a =>
      have ha := hc.nearestCommonBase?_some hfinish hfound
      rw [hc.nearestCommonBase_unique hfinish ha hb]

/-- It finds nothing exactly if no type is in all chains. -/
theorem WellFormed.nearestCommonBase?_eq_none_iff (hc : c.WellFormed) (hfinish : c.finish = .ok h)
    (hne : ids ≠ []) :
    h.catalog.nearestCommonBase? ids = none ↔
      ¬ ∃ x, ∀ id ∈ ids, x ∈ h.catalog.selfAndBases id := by
  constructor
  · exact nearestCommonBase?_none hne
  · intro hnone
    cases hfound : h.catalog.nearestCommonBase? ids with
    | none => rfl
    | some b => exact absurd ⟨b, (hc.nearestCommonBase?_some hfinish hfound).common⟩ hnone

/-- Lists of the same types have the same nearest common base. -/
theorem WellFormed.nearestCommonBase?_congr (hc : c.WellFormed) (hfinish : c.finish = .ok h)
    (hsame : ∀ id, id ∈ ids' ↔ id ∈ ids) :
    h.catalog.nearestCommonBase? ids' = h.catalog.nearestCommonBase? ids := by
  by_cases hne : ids = []
  · have hne' : ids' = [] := List.eq_nil_iff_forall_not_mem.mpr fun id hid => by
      simpa [hne] using (hsame id).mp hid
    rw [hne, hne']
  · have hne' : ids' ≠ [] := fun hnil => hne (List.eq_nil_iff_forall_not_mem.mpr fun id hid => by
      simpa [hnil] using (hsame id).mpr hid)
    have hset : (· ∈ ids') = (· ∈ ids) := funext fun id => propext (hsame id)
    refine Option.ext fun b => ?_
    rw [hc.nearestCommonBase?_eq_some_iff hfinish hne',
      hc.nearestCommonBase?_eq_some_iff hfinish hne, hset]

end

/-- The nearest common base is the lowest common ancestor along bases. In a finished
catalogue, some types, at least one, have one exactly if their chains of bases share a
type. It is then the type that is in all of the chains and whose own chain has every type
that is in all of them. It is the same for every list of the same types, in whatever order
and however often. -/
theorem nearestCommonBase?_lowest {c : Catalog} {h : Hierarchy} (hc : c.Reachable)
    (hfinish : c.finish = .ok h) {ids : List TypeId} (hne : ids ≠ []) :
    ((∃ b, h.catalog.nearestCommonBase? ids = some b) ↔
        ∃ x, ∀ id ∈ ids, x ∈ h.catalog.selfAndBases id) ∧
      (∀ b, h.catalog.nearestCommonBase? ids = some b ↔
        (∀ id ∈ ids, b ∈ h.catalog.selfAndBases id) ∧
          ∀ x, (∀ id ∈ ids, x ∈ h.catalog.selfAndBases id) → x ∈ h.catalog.selfAndBases b) ∧
      (h.catalog.nearestCommonBase? ids = none ↔
        ¬ ∃ x, ∀ id ∈ ids, x ∈ h.catalog.selfAndBases id) ∧
      ∀ ids', (∀ id, id ∈ ids' ↔ id ∈ ids) →
        h.catalog.nearestCommonBase? ids' = h.catalog.nearestCommonBase? ids := by
  have hwf := hc.wellFormed
  have hnone := hwf.nearestCommonBase?_eq_none_iff hfinish hne
  refine ⟨?_, fun b => ?_, hnone, fun ids' hsame => hwf.nearestCommonBase?_congr hfinish hsame⟩
  · rw [← Option.ne_none_iff_exists', ne_eq, hnone, Classical.not_not]
  · rw [hwf.nearestCommonBase?_eq_some_iff hfinish hne]
    exact ⟨fun hb => ⟨hb.common, hb.nearest⟩, fun ⟨hcommon, hnearest⟩ => ⟨hcommon, hnearest⟩⟩

/-- `Derived<string>` and `Box<string>` have the nearest common base `Box<string>`, whichever
of them comes first. `Derived<string>` and `string` have none. -/
theorem nearestCommonBase?_lowest_boxes :
    (boxes.Reachable ∧ boxes.finish = .ok ⟨boxesFinished⟩ ∧ [(⟨6⟩ : TypeId), ⟨7⟩] ≠ []) ∧
    boxesFinished.nearestCommonBase? [⟨6⟩, ⟨7⟩] = some ⟨7⟩ ∧
    boxesFinished.nearestCommonBase? [⟨7⟩, ⟨6⟩, ⟨7⟩] = some ⟨7⟩ ∧
    boxesFinished.nearestCommonBase? [⟨6⟩, ⟨5⟩] = none := by
  have hne : ∀ a b : TypeId, [a, b] ≠ [] := fun a b => List.cons_ne_nil _ _
  obtain ⟨-, hsome, -, hsame⟩ :=
    nearestCommonBase?_lowest reachable_boxes finish_boxes (hne ⟨6⟩ ⟨7⟩)
  obtain ⟨-, -, hnone, -⟩ := nearestCommonBase?_lowest reachable_boxes finish_boxes (hne ⟨6⟩ ⟨5⟩)
  have hderived : boxesFinished.selfAndBases ⟨6⟩ = [⟨6⟩, ⟨7⟩] := rfl
  have hbox : boxesFinished.selfAndBases ⟨7⟩ = [⟨7⟩] := rfl
  have hstring : boxesFinished.selfAndBases ⟨5⟩ = [⟨5⟩] := rfl
  have hfound : boxesFinished.nearestCommonBase? [⟨6⟩, ⟨7⟩] = some ⟨7⟩ := by
    refine (hsome ⟨7⟩).mpr ⟨?_, fun x hx => hx ⟨7⟩ (by simp)⟩
    simp [hderived, hbox]
  refine ⟨⟨reachable_boxes, finish_boxes, hne _ _⟩, hfound, ?_, hnone.mpr ?_⟩
  · rw [hsame [⟨7⟩, ⟨6⟩, ⟨7⟩] (by simp [or_comm])]
    exact hfound
  · rintro ⟨x, hx⟩
    have hx₁ := hx ⟨6⟩ (by simp)
    have hx₂ := hx ⟨5⟩ (by simp)
    rw [hderived] at hx₁
    rw [hstring, List.mem_singleton] at hx₂
    subst hx₂
    revert hx₁
    decide

end Generics.Catalog

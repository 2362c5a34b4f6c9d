/-
Generics.Proofs.Ancestor.BaseChain — the limit on chains of bases hides nothing.

A chain of bases is followed for as many steps as there are types. While a catalogue is
being built its bases may go round, and then the limit is what ends the chain, though not before
it has been at every type above (`WellFormed.mem_bases_iff`). In a finished catalogue nothing goes
round, so the chain has each type once and ends by itself, at a type that has no base
(`bases_complete`).
-/
import Mathlib.Data.List.Chain
import Generics.Proofs.Ancestor.Coherence
import Generics.Proofs.Catalog.Applications

namespace Generics.Catalog

open Relation

section

variable {c : Catalog} {h : Hierarchy} {id : TypeId}

/-! ## 1. Chains that end -/

/-- Each type of a chain is the base of the one before. -/
theorem isChain_basesWithin (c : Catalog) (steps : Nat) (id : TypeId) :
    (id :: c.basesWithin steps id).IsChain c.BaseOf := by
  induction steps generalizing id with
  | zero => exact List.isChain_singleton id
  | succ steps ih =>
    rw [basesWithin]
    cases hbase : c.base? id with
    | none => exact List.isChain_singleton id
    | some base => exact List.isChain_cons_cons.mpr ⟨hbase, ih base⟩

/-- A chain that one step more makes no longer has come to a type without a base. -/
theorem base?_getLast_of_stable {steps : Nat}
    (hstable : c.basesWithin (steps + 1) id = c.basesWithin steps id) :
    c.base? ((id :: c.basesWithin steps id).getLast (List.cons_ne_nil _ _)) = none := by
  induction steps generalizing id with
  | zero =>
    cases hbase : c.base? id with
    | none => exact hbase
    | some base => simp [basesWithin, hbase] at hstable
  | succ steps ih =>
    rw [basesWithin, basesWithin] at hstable
    cases hbase : c.base? id with
    | none => simp [basesWithin, hbase]
    | some base =>
      simp only [hbase] at hstable
      simp only [basesWithin, hbase]
      rw [List.getLast_cons (List.cons_ne_nil _ _)]
      exact ih (List.cons.inj hstable).2

/-- In a finished catalogue a type and the bases above it are distinct. -/
theorem WellFormed.nodup_selfAndBases (hc : c.WellFormed) (hfinish : c.finish = .ok h)
    (id : TypeId) : (h.catalog.selfAndBases id).Nodup :=
  (hc.nodup_unbound_selfAndBases hfinish id).of_map _

/-- In a finished catalogue a chain of bases does not come up to the limit. -/
theorem WellFormed.length_bases_lt (hc : c.WellFormed) (hfinish : c.finish = .ok h)
    (hid : h.catalog.knows id = true) : (h.catalog.bases id).length < h.catalog.size := by
  have hsubset : h.catalog.selfAndBases id ⊆ h.catalog.ids := by
    intro x hx
    rw [mem_ids_iff]
    rcases List.mem_cons.mp hx with rfl | hx
    · exact hid
    · obtain ⟨n, -, hn⟩ := mem_basesWithin_iff.mp hx
      exact (hc.of_finish hfinish).knows_of_nthBase? hn
  have hlength := (List.subperm_of_subset (hc.nodup_selfAndBases hfinish id) hsubset).length_le
  simpa [selfAndBases, ids, Nat.succ_le_iff] using hlength

end

/-! ## 2. Every base is there -/

/-- The limit on the length of a chain of bases hides no base. In every catalogue that calls
can build, even where bases go round, a chain has at most as many types as there are, and it
has exactly the types that one or more bases lead to. In a finished catalogue it has
each of them once and the nearest first, and what ends it is a type that has no base: for a
type of the catalogue the limit is not even reached. -/
theorem bases_complete {c : Catalog} (hc : c.Reachable) :
    (∀ id, (c.bases id).length ≤ c.size ∧ ∀ b, b ∈ c.bases id ↔ TransGen c.BaseOf id b) ∧
      ∀ h, c.finish = .ok h → ∀ id,
        (∀ b, b ∈ h.catalog.bases id ↔ TransGen h.catalog.BaseOf id b) ∧
        (h.catalog.bases id).Nodup ∧
        (id :: h.catalog.bases id).IsChain h.catalog.BaseOf ∧
        h.catalog.base? ((id :: h.catalog.bases id).getLast (List.cons_ne_nil _ _)) = none ∧
        (h.catalog.knows id = true → (h.catalog.bases id).length < h.catalog.size) := by
  have hwf := hc.wellFormed
  refine ⟨fun id => ⟨length_basesWithin_le c c.size id, fun b => hwf.mem_bases_iff⟩, ?_⟩
  intro h hfinish id
  exact ⟨fun b => (hwf.of_finish hfinish).mem_bases_iff,
    (List.nodup_cons.mp (hwf.nodup_selfAndBases hfinish id)).2,
    isChain_basesWithin h.catalog h.catalog.size id,
    base?_getLast_of_stable (hwf.uncut hfinish id 1),
    hwf.length_bases_lt hfinish⟩

/-! ## 3. Bases that go round -/

/-- The classes `Ring : Knot`, `Knot : Ring` and `Rope : Ring`. -/
def knotted : Catalog where
  nodes := #[
    ⟨"Ring", .classType, .plain, 0, some ⟨1⟩, []⟩,
    ⟨"Knot", .classType, .plain, 0, some ⟨0⟩, []⟩,
    ⟨"Rope", .classType, .plain, 0, some ⟨0⟩, []⟩]
  declared := (((∅ : Std.HashMap String TypeId).insertIfNew "Ring" ⟨0⟩).insertIfNew
    "Knot" ⟨1⟩).insertIfNew "Rope" ⟨2⟩
  applications := ∅

theorem reachable_knotted : knotted.Reachable := by
  have hdeclared := ((Reachable.empty.perform (.declare .classType "Ring" [])).perform
    (.declare .classType "Knot" [])).perform (.declare .classType "Rope" [])
  have hlinked := ((hdeclared.perform (.setBase ⟨0⟩ ⟨1⟩)).perform (.setBase ⟨1⟩ ⟨0⟩)).perform
    (.setBase ⟨2⟩ ⟨0⟩)
  exact hlinked

/-- From `Rope` the chain enters a circle and is cut when it comes to `Ring` again, with both types
of the circle in it. In `boxes`, finished, the chain from `Derived<string>` ends at
`Box<string>`. -/
theorem bases_complete_knotted :
    (knotted.Reachable ∧ boxes.Reachable ∧ boxes.finish = .ok ⟨boxesFinished⟩ ∧
      boxesFinished.knows ⟨6⟩ = true) ∧
    knotted.bases ⟨2⟩ = [⟨0⟩, ⟨1⟩, ⟨0⟩] ∧
    (∀ b, TransGen knotted.BaseOf ⟨2⟩ b ↔ b = ⟨0⟩ ∨ b = ⟨1⟩) ∧
    boxesFinished.bases ⟨6⟩ = [⟨7⟩] ∧ boxesFinished.base? ⟨7⟩ = none ∧
    (boxesFinished.bases ⟨6⟩).length < boxesFinished.size := by
  obtain ⟨hround, -⟩ := bases_complete reachable_knotted
  obtain ⟨-, hfinished⟩ := bases_complete reachable_boxes
  have hrope : knotted.bases ⟨2⟩ = [⟨0⟩, ⟨1⟩, ⟨0⟩] := rfl
  have hderived : boxesFinished.bases ⟨6⟩ = [⟨7⟩] := rfl
  obtain ⟨-, -, -, hend, hlength⟩ := hfinished _ finish_boxes ⟨6⟩
  refine ⟨⟨reachable_knotted, reachable_boxes, finish_boxes, rfl⟩, hrope, fun b => ?_, hderived,
    hend, hlength rfl⟩
  rw [← (hround ⟨2⟩).2 b, hrope]
  simp only [List.mem_cons, List.not_mem_nil, or_false]
  tauto

end Generics.Catalog

/-
Generics.Proofs.Catalog.Applications — the applications that a catalogue has.

They are the types that the limits count. They are given here as numbers
(`applicationIds`) and written out as trees (`appliedTrees`). The index has one entry for each of
them, so its size counts both.
-/
import Mathlib.Data.List.Nodup
import Mathlib.Data.Set.Card
import Generics.Proofs.Catalog.WellFormed

namespace Generics.Catalog

open TypeTree

/-! ## 1. Numbers -/

/-- The applications of a catalogue, in the order in which they were made. -/
def applicationIds (c : Catalog) : List TypeId :=
  c.ids.filter fun id => (c.node? id).any Node.isApplication

section

variable {c : Catalog} {id definition : TypeId} {args : List TypeId}

theorem mem_ids_iff : id ∈ c.ids ↔ c.knows id = true := by
  simp only [ids, List.mem_map, List.mem_range, knows_iff]
  constructor
  · intro h
    obtain ⟨index, hlt, rfl⟩ := h
    exact hlt
  · intro h
    exact ⟨id.index, h, rfl⟩

theorem nodup_ids (c : Catalog) : c.ids.Nodup :=
  List.nodup_range.map fun _ _ h => TypeId.mk.inj h

theorem mem_applicationIds_iff :
    id ∈ c.applicationIds ↔
      ∃ definition args, c.form? id = some (.application definition args) := by
  simp only [applicationIds, List.mem_filter, mem_ids_iff, Option.any_eq_true, isApplication_iff,
    form?_eq_some]
  constructor
  · intro h
    obtain ⟨-, node, hnode, d, args, hform⟩ := h
    exact ⟨d, args, node, hnode, hform⟩
  · intro h
    obtain ⟨d, args, node, hnode, hform⟩ := h
    exact ⟨knows_of_node? hnode, node, hnode, d, args, hform⟩

theorem nodup_applicationIds (c : Catalog) : c.applicationIds.Nodup :=
  (nodup_ids c).filter _

/-- What an application is made of. -/
def applicationKey (c : Catalog) (id : TypeId) : TypeId × List TypeId :=
  (c.unbound id, c.args id)

theorem applicationKey_of_form? (h : c.form? id = some (.application definition args)) :
    c.applicationKey id = (definition, args) := by
  simp [applicationKey, unbound, definition?_of_application h, args_of_application h]

/-- The index has a key for each application, and no others. -/
theorem WellFormed.perm_keys (hc : c.WellFormed) :
    (c.applicationIds.map c.applicationKey).Perm c.applications.keys := by
  have hnodup : (c.applicationIds.map c.applicationKey).Nodup := by
    refine List.Nodup.map_on ?_ c.nodup_applicationIds
    intro a ha b hb heq
    obtain ⟨d, as, hform⟩ := mem_applicationIds_iff.mp ha
    obtain ⟨d', as', hform'⟩ := mem_applicationIds_iff.mp hb
    rw [applicationKey_of_form? hform, applicationKey_of_form? hform'] at heq
    cases heq
    have hfound := hc.applications.mpr hform
    exact Option.some.inj (hfound.symm.trans (hc.applications.mpr hform'))
  refine (List.perm_ext_iff_of_nodup hnodup Std.HashMap.nodup_keys).mpr fun key => ?_
  simp only [List.mem_map, mem_applicationIds_iff, Std.HashMap.mem_keys,
    Std.HashMap.mem_iff_isSome_getElem?, Option.isSome_iff_exists]
  constructor
  · intro h
    obtain ⟨a, ⟨d, as, hform⟩, rfl⟩ := h
    rw [applicationKey_of_form? hform]
    exact ⟨a, hc.applications.mpr hform⟩
  · intro h
    obtain ⟨a, ha⟩ := h
    have hform := hc.applications.mp ha
    exact ⟨a, ⟨_, _, hform⟩, applicationKey_of_form? hform⟩

/-- The index is as large as there are applications. -/
theorem WellFormed.length_applicationIds (hc : c.WellFormed) :
    c.applicationIds.length = c.applications.size := by
  rw [← List.length_map c.applicationKey, hc.perm_keys.length_eq, Std.HashMap.length_keys]

end

/-! ## 2. Trees -/

/-- The trees of the applications that a catalogue has. -/
def appliedTrees (c : Catalog) : Set TypeTree :=
  { t | ∃ id definition args, c.form? id = some (.application definition args) ∧ c.tree id = t }

section

variable {c : Catalog} {id : TypeId} {u : TypeTree}

theorem WellFormed.mem_appliedTrees_iff (hc : c.WellFormed) :
    u ∈ c.appliedTrees ↔ c.isApplied u = true ∧ ∃ id, c.tree id = u := by
  constructor
  · rintro ⟨id, d, args, hform, rfl⟩
    exact ⟨hc.isApplied_tree_iff.mpr ⟨d, args, hform⟩, id, rfl⟩
  · rintro ⟨happ, id, rfl⟩
    obtain ⟨d, args, hform⟩ := hc.isApplied_tree_iff.mp happ
    exact ⟨id, d, args, hform, rfl⟩

/-- A part of a type is a type of the same catalogue. -/
theorem WellFormed.exists_tree_of_part (hc : c.WellFormed) {t : TypeTree} (h : Part u t)
    (ht : ∃ id, c.tree id = t) : ∃ id, c.tree id = u := by
  induction h with
  | refl => exact ht
  | arg hmem _ ih =>
    obtain ⟨id, hid⟩ := ht
    obtain ⟨-, rfl⟩ := hc.definition?_of_tree hid
    obtain ⟨a, -, ha⟩ := List.mem_map.mp hmem
    exact ih ⟨a, ha⟩

/-- There is one tree for each application. -/
theorem WellFormed.encard_appliedTrees (hc : c.WellFormed) :
    c.appliedTrees.encard = c.applications.size := by
  have himage : c.appliedTrees = c.tree '' (c.applicationIds.toFinset : Set TypeId) := by
    ext t
    simp only [appliedTrees, Set.mem_ofPred_eq, Set.mem_image, List.coe_toFinset,
      mem_applicationIds_iff]
    constructor
    · rintro ⟨id, d, args, hform, rfl⟩
      exact ⟨id, ⟨d, args, hform⟩, rfl⟩
    · rintro ⟨id, ⟨d, args, hform⟩, rfl⟩
      exact ⟨id, d, args, hform, rfl⟩
  rw [himage, hc.tree_injective.encard_image, Set.encard_coe_eq_coe_finsetCard,
    List.toFinset_card_of_nodup c.nodup_applicationIds, hc.length_applicationIds]

end

end Generics.Catalog

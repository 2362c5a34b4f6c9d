/-
Generics.Proofs.Hierarchy.Interfaces — where the listed interfaces come from.

A finished catalogue lists for each type all interfaces it inherits. Every one
of them is an interface that some type declares to which the first is linked,
directly or through others. Nothing else about a type changes, so a catalogue
that is well formed remains so.
-/
import Generics.Proofs.Hierarchy.Flattening

namespace Generics.Catalog

open Relation

/-! ## 1. Inheriting an interface -/

/-- `interface` is listed by `id` or by a type that `id` inherits from. -/
def InheritsInterface (c : Catalog) (id interface : TypeId) : Prop :=
  ∃ owner, ReflTransGen c.Inherits id owner ∧ interface ∈ c.interfaces owner

section

variable {c : Catalog} {id link interface : TypeId} {node : Node}

theorem InheritsInterface.own (h : interface ∈ c.interfaces id) :
    c.InheritsInterface id interface :=
  ⟨id, .refl, h⟩

theorem InheritsInterface.of_link (hlink : c.Inherits id link)
    (h : c.InheritsInterface link interface) : c.InheritsInterface id interface := by
  obtain ⟨owner, hpath, hmem⟩ := h
  exact ⟨owner, .head hlink hpath, hmem⟩

theorem InheritsInterface.transGen (h : c.InheritsInterface id interface) :
    TransGen c.Inherits id interface := by
  obtain ⟨owner, hpath, hmem⟩ := h
  exact .tail' hpath (.inr hmem)

theorem InheritsInterface.kind? (hc : c.WellFormed) (h : c.InheritsInterface id interface) :
    c.kind? interface = some .interfaceType := by
  obtain ⟨owner, -, hmem⟩ := h
  exact hc.kind?_of_mem_interfaces hmem

/-- A type that inherits an interface is not a type parameter. -/
theorem InheritsInterface.not_isParameter (hc : c.WellFormed)
    (h : c.InheritsInterface id interface) : c.isParameter id = false := by
  obtain ⟨link, hlink, -⟩ := TransGen.head'_iff.mp h.transGen
  exact hc.not_isParameter_of_inherits hlink

/-- With ranks that go down along links, a list holds nothing but interfaces that the type
inherits. -/
theorem ListsInterfaces.inheritsInterface {rank : TypeId → Nat} {lists : TypeId → List TypeId}
    (hdown : ∀ id link, c.Inherits id link → rank link < rank id) (h : c.ListsInterfaces lists)
    (hmem : interface ∈ lists id) : c.InheritsInterface id interface := by
  induction hn : rank id using Nat.strongRecOn generalizing id with
  | ind n ih =>
    rcases h.mem_iff.mp hmem with hown | ⟨link, hlink, hlisted⟩
    · exact .own hown
    · exact .of_link hlink (ih (rank link) (hn ▸ hdown id link hlink) hlisted rfl)

theorem WellFormed.inheritsInterface_of_listed (hc : c.WellFormed)
    (hacyclic : ∀ id, ¬ TransGen c.Inherits id id) (hmem : interface ∈ c.listedInterfaces id) :
    c.InheritsInterface id interface := by
  obtain ⟨rank, hdown⟩ := hc.exists_rank_of_acyclic hacyclic
  exact (hc.listsInterfaces hacyclic).inheritsInterface hdown hmem

/-! ## 2. The catalogue with its lists -/

theorem node?_withInheritedInterfaces (c : Catalog) (id : TypeId) :
    c.withInheritedInterfaces.node? id =
      (c.node? id).map fun node => { node with interfaces := c.listedInterfaces id } := by
  simp only [withInheritedInterfaces, node?, Array.getElem?_mapIdx, listedInterfaces]

theorem interfaces_withInheritedInterfaces (hknown : c.knows id = true) :
    c.withInheritedInterfaces.interfaces id = c.listedInterfaces id := by
  obtain ⟨node, hnode⟩ := node?_of_knows hknown
  rw [interfaces, node?_withInheritedInterfaces, hnode]
  rfl

theorem preserves_withInheritedInterfaces (c : Catalog) :
    c.Preserves c.withInheritedInterfaces := by
  intro id node hnode
  rw [node?_withInheritedInterfaces, hnode]
  exact ⟨_, rfl, rfl, rfl, rfl, rfl⟩

theorem withInheritedInterfaces_preserves (c : Catalog) :
    c.withInheritedInterfaces.Preserves c := by
  intro id node' hnode'
  rw [node?_withInheritedInterfaces] at hnode'
  obtain ⟨node, hnode, rfl⟩ := Option.map_eq_some_iff.mp hnode'
  exact ⟨node, hnode, rfl, rfl, rfl, rfl⟩

@[simp] theorem form?_withInheritedInterfaces (c : Catalog) (id : TypeId) :
    c.withInheritedInterfaces.form? id = c.form? id := by
  rw [form?, form?, node?_withInheritedInterfaces, Option.map_map]
  rfl

@[simp] theorem unbound_withInheritedInterfaces (c : Catalog) (id : TypeId) :
    c.withInheritedInterfaces.unbound id = c.unbound id := by
  have hform : (c.withInheritedInterfaces.node? id).map Node.form = (c.node? id).map Node.form :=
    form?_withInheritedInterfaces c id
  rw [unbound, unbound, definition?, definition?, hform]

@[simp] theorem base?_withInheritedInterfaces (c : Catalog) (id : TypeId) :
    c.withInheritedInterfaces.base? id = c.base? id := by
  rw [base?, base?, node?_withInheritedInterfaces]
  cases c.node? id <;> rfl

@[simp] theorem tree_withInheritedInterfaces (c : Catalog) (id : TypeId) :
    c.withInheritedInterfaces.tree id = c.tree id := by
  cases hknown : c.knows id with
  | true => exact (preserves_withInheritedInterfaces c).tree hknown
  | false =>
    have hnode : c.node? id = none := Option.not_isSome_iff_eq_none.mp (by
      rw [Bool.eq_false_iff] at hknown
      exact hknown)
    rw [tree, tree, node?_withInheritedInterfaces, hnode]
    rfl

theorem WellFormed.mem_interfaces_withInheritedInterfaces (hc : c.WellFormed)
    (hacyclic : ∀ id, ¬ TransGen c.Inherits id id)
    (h : interface ∈ c.withInheritedInterfaces.interfaces id) :
    c.InheritsInterface id interface := by
  rw [interfaces, node?_withInheritedInterfaces] at h
  cases hnode : c.node? id with
  | none =>
    rw [hnode] at h
    cases h
  | some node =>
    rw [hnode] at h
    exact hc.inheritsInterface_of_listed hacyclic h

/-- A link of the finished catalogue is a chain of direct ones. -/
theorem WellFormed.transGen_of_inherits (hc : c.WellFormed)
    (hacyclic : ∀ id, ¬ TransGen c.Inherits id id)
    (h : c.withInheritedInterfaces.Inherits id link) : TransGen c.Inherits id link := by
  rcases h with hbase | hmem
  · rw [base?_withInheritedInterfaces] at hbase
    exact .single (.inl hbase)
  · exact (hc.mem_interfaces_withInheritedInterfaces hacyclic hmem).transGen

/-- Listing inherited interfaces keeps a catalogue well formed. -/
theorem WellFormed.withInheritedInterfaces (hc : c.WellFormed)
    (hacyclic : ∀ id, ¬ TransGen c.Inherits id id) : c.withInheritedInterfaces.WellFormed := by
  have hp := preserves_withInheritedInterfaces c
  refine hc.of_preserves hp ?_ ?_ ?_ hc.room fun hname => .inl hname
  · intro id node hnode hunknown
    rw [(withInheritedInterfaces_preserves c).knows (knows_of_node? hnode)] at hunknown
    cases hunknown
  · intro id node hnode
    have hlisted : ∀ {i}, i ∈ node.interfaces → c.InheritsInterface id i := fun hi =>
      hc.mem_interfaces_withInheritedInterfaces hacyclic (by rwa [interfaces_of_node? hnode])
    rw [node?_withInheritedInterfaces] at hnode
    obtain ⟨old, hold, rfl⟩ := Option.map_eq_some_iff.mp hnode
    have hlinks := (hc.links hold).mono hp
    refine
      { base := hlinks.base
        interfaces := fun hi => hp.kind? ((hlisted hi).kind? hc)
        ofInterface := hlinks.ofInterface
        ofParameter := fun hparam => ⟨(hlinks.ofParameter hparam).1, ?_⟩ }
    refine List.eq_nil_iff_forall_not_mem.mpr fun i hi => ?_
    have hnot := (hlisted hi).not_isParameter hc
    rw [isParameter, hold] at hnot
    have hparam' : old.isParameter = true := hparam
    rw [Option.any_some, hparam'] at hnot
    cases hnot
  · intro d args id
    rw [form?_withInheritedInterfaces]
    exact hc.applications

/-- Lists that solve the equation are the ones that a catalogue gets. -/
theorem WellFormed.withInheritedInterfaces_eq (hc : c.WellFormed)
    (hacyclic : ∀ id, ¬ TransGen c.Inherits id id) {lists : TypeId → List TypeId}
    (h : c.ListsInterfaces lists) :
    c.withInheritedInterfaces =
      { c with nodes := c.nodes.mapIdx fun index node =>
          { node with interfaces := lists ⟨index⟩ } } := by
  obtain ⟨rank, hdown⟩ := hc.exists_rank_of_acyclic hacyclic
  have hsame : ∀ index : Nat, c.inheritedInterfaces[index]?.getD [] = lists ⟨index⟩ :=
    fun index => (hc.listsInterfaces hacyclic).unique hdown h ⟨index⟩
  simp only [Catalog.withInheritedInterfaces, hsame]

/-- A finished catalogue has the types it was made from. -/
theorem WellFormed.preserves_of_finish (hc : c.WellFormed) {h : Hierarchy}
    (hfinish : c.finish = .ok h) : c.Preserves h.catalog := by
  obtain ⟨-, direct, hrun, rfl⟩ := finish_eq_ok_iff.mp hfinish
  exact (hc.expands_of_ok hrun).1.preserves.trans (preserves_withInheritedInterfaces direct)

/-- A finished catalogue is well formed. -/
theorem WellFormed.of_finish (hc : c.WellFormed) {h : Hierarchy} (hfinish : c.finish = .ok h) :
    h.catalog.WellFormed := by
  obtain ⟨direct, hcomplete, rfl⟩ := hc.completes_of_finish hfinish
  exact hcomplete.wellFormed.withInheritedInterfaces hcomplete.not_transGen

end

end Generics.Catalog

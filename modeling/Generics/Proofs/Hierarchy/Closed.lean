/-
Generics.Proofs.Hierarchy.Closed — types without type parameters.

A type is closed if no path through its arguments leads to a type parameter. Open
definitions are not closed, since they stand for themselves applied to their own
parameters. A type is closed exactly if its tree stays as it is when every type
parameter in it is marked (`WellFormed.closed_iff`). Where declared links mention no
foreign type parameters, links follow such a replacement, and so closed types
inherit closed types only (`closed_of_inherits`).
-/
import Generics.Proofs.Hierarchy.Inheritance

namespace Generics.Catalog

open Relation TypeTree

/-- No type parameter occurs in the type, at any depth. -/
def Closed (c : Catalog) (id : TypeId) : Prop :=
  ∀ ⦃path p⦄, c.Leads id path p → c.isParameter p = false

/-- Plain types and applications to such types, which is what closed types are. -/
inductive Ground (c : Catalog) : TypeId → Prop
  | plain {id : TypeId} (hform : c.form? id = some .plain) : Ground c id
  | application {id d : TypeId} {args : List TypeId}
      (hform : c.form? id = some (.application d args)) (hargs : ∀ a ∈ args, Ground c a) :
      Ground c id

/-- Something that is no leaf in place of every type parameter. -/
def marking (c : Catalog) (id : TypeId) : TypeTree :=
  if c.isParameter id then .apply id [] else .leaf id

section

variable {c : Catalog} {id a : TypeId}

theorem Closed.not_isParameter (h : c.Closed id) : c.isParameter id = false :=
  h (.here id)

theorem closed_of_args (hnot : c.isParameter id = false) (h : ∀ a ∈ c.args id, c.Closed a) :
    c.Closed id := by
  intro path p hleads
  cases hleads with
  | here => exact hnot
  | into ha hrest => exact h _ (List.mem_of_getElem? ha) hrest

theorem Closed.arg (h : c.Closed id) (ha : a ∈ c.args id) : c.Closed a := by
  intro path p hleads
  obtain ⟨index, hindex⟩ := List.getElem?_of_mem ha
  exact h (.into hindex hleads)

/-- An open definition is not closed. -/
theorem Closed.form?_ne_definition (h : c.Closed id) (hc : c.WellFormed) (params : List TypeId) :
    c.form? id ≠ some (.definition params) := by
  intro hform
  obtain ⟨p, hp⟩ := List.exists_mem_of_ne_nil _ (hc.ownParams hform).nonempty
  have hnot := (h.arg (by rwa [args_of_definition hform])).not_isParameter
  rw [hc.isParameter_of_mem_params hform hp] at hnot
  cases hnot

theorem WellFormed.ground_of_closed (hc : c.WellFormed) (hid : c.knows id = true)
    (hclosed : c.Closed id) : c.Ground id := by
  induction id using hc.args_induction with
  | step id ih =>
    obtain ⟨node, hnode⟩ := node?_of_knows hid
    have hform := form?_of_node? hnode
    cases hnode' : node.form with
    | plain => exact .plain (hnode' ▸ hform)
    | parameter position =>
      have hnot := hclosed.not_isParameter
      rw [isParameter_iff.mpr ⟨position, hnode' ▸ hform⟩] at hnot
      cases hnot
    | definition params => exact absurd (hnode' ▸ hform) (hclosed.form?_ne_definition hc params)
    | application d args =>
      rw [hnode'] at hform
      refine .application hform fun a ha => ?_
      rw [← args_of_application hform] at ha
      exact ih a ha (hc.knows_of_mem_args ha) (hclosed.arg ha)

/-- A type is closed exactly if marking type parameters changes nothing. -/
theorem WellFormed.closed_iff (hc : c.WellFormed) :
    c.Closed id ↔ (c.tree id).replace c.marking = c.tree id := by
  constructor
  · intro h
    refine replace_eq_self fun p hp => ?_
    obtain ⟨path, hleads⟩ := hc.leads_of_part hp
    simp [marking, h hleads]
  · intro h path p hleads
    induction hleads with
    | here id =>
      rw [Bool.eq_false_iff]
      intro hparam
      rw [tree_of_definition?_none (definition?_of_isParameter hparam), replace_leaf, marking,
        if_pos hparam] at h
      cases h
    | @into id a target index rest ha _ ih =>
      have hmem := List.mem_of_getElem? ha
      cases hdef : c.definition? id with
      | none =>
        rw [args_of_definition?_none hdef] at hmem
        cases hmem
      | some d =>
        rw [hc.tree_of_definition? hdef, replace_apply, TypeTree.apply.injEq, List.map_map,
          List.map_inj_left] at h
        exact ih (h.2 a hmem)

end

/-! ## Links -/

namespace Completes

variable {c direct : Catalog} {x link : TypeId}

/-- A closed type has closed links. -/
theorem closed_of_inherits (h : Completes c direct) (hscoped : c.Scoped) (hx : direct.Closed x)
    (hlink : direct.Inherits x link) : direct.Closed link := by
  have hσ : ∀ id, direct.isParameter id = false → direct.marking id = leaf id := by
    intro id hid
    simp [marking, hid]
  -- `x` is its own image under the marking, so its links are their own images
  have hself := h.wellFormed.closed_iff.mp hx
  have hlinks := h.linksReplaced hscoped hσ hx.not_isParameter hself.symm
  rw [h.wellFormed.closed_iff]
  rcases hlink with hbase | hmem
  · have heq := hlinks.base
    rw [hbase, Option.map_some, Option.map_some, Option.some.injEq] at heq
    exact heq.symm
  · exact (List.map_inj_left.mp hlinks.interfaces link hmem).symm

end Completes

theorem Completes.closed_withInheritedInterfaces {c direct : Catalog} (h : Completes c direct)
    (id : TypeId) : direct.withInheritedInterfaces.Closed id ↔ direct.Closed id := by
  have hmarking : direct.withInheritedInterfaces.marking = direct.marking := by
    funext id
    rw [marking, marking, isParameter, isParameter, node?_withInheritedInterfaces,
      Option.any_map]
    rfl
  rw [h.wellFormed.closed_iff, (h.wellFormed.withInheritedInterfaces h.not_transGen).closed_iff,
    tree_withInheritedInterfaces, hmarking]

/-- In a finished catalogue whose declared links mention no foreign type parameters,
closed types inherit closed types only. -/
theorem WellFormed.closed_of_inherits {c : Catalog} {h : Hierarchy} (hc : c.WellFormed)
    (hfinish : c.finish = .ok h) (hscoped : c.Scoped) {x link : TypeId}
    (hx : h.catalog.Closed x) (hlink : h.catalog.Inherits x link) : h.catalog.Closed link := by
  obtain ⟨direct, hcomplete, rfl⟩ := hc.completes_of_finish hfinish
  rw [hcomplete.closed_withInheritedInterfaces] at hx ⊢
  -- an interface listed in finishing is the end of a chain of links that were there before
  have hchain := hcomplete.wellFormed.transGen_of_inherits hcomplete.not_transGen hlink
  clear hlink
  induction hchain with
  | single hstep => exact hcomplete.closed_of_inherits hscoped hx hstep
  | tail _ hstep ih => exact hcomplete.closed_of_inherits hscoped ih hstep

end Generics.Catalog

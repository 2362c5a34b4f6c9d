/-
Generics.Proofs.Hierarchy.Canonical — one number for each type.

Everything that compares types compares numbers. That is right because a
catalogue never has two numbers for the same type: its index of applications is
exact, an application to the own parameters of a definition does not exist, and
arguments are older than what they are arguments of. `Canonical` is what follows
from this for every number that a catalogue holds. It is true at every point of
building a catalogue and of the finished one (`reachable_canonical`).
-/
import Generics.Proofs.Hierarchy.Acyclic

namespace Generics.Catalog

/-- A well-formed catalogue seen from its numbers. -/
structure Canonical (c : Catalog) : Prop extends WellFormed c where
  /-- Arguments, links and definitions have been given out. -/
  args_known : ∀ {id a}, a ∈ c.args id → c.knows a = true
  links_known : ∀ {id link}, c.Inherits id link → c.knows link = true
  definition_known : ∀ {id definition}, c.definition? id = some definition →
    c.knows definition = true
  /-- An open definition is its own, and its arguments are its parameters, which
  no other has. -/
  open_definition : ∀ {id params}, c.form? id = some (.definition params) →
    c.definition? id = some id ∧ c.args id = params
  owner : ∀ {p d d'}, p ∈ c.params d → p ∈ c.params d' → d = d'
  /-- An application has the traits of its definition other than being one. -/
  traits : ∀ {id node definition args definitionNode}, c.node? id = some node →
    node.form = .application definition args → c.node? definition = some definitionNode →
    node.traitBits + 4 = definitionNode.traitBits
  /-- The noted depth is that of the written-out type. -/
  depth_eq : ∀ id, c.depth id = c.treeDepth (c.tree id)
  depth_eq_zero : ∀ {id}, (∀ d args, c.form? id ≠ some (.application d args)) → c.depth id = 0
  parameter : ∀ {id}, c.isParameter id = true →
    c.args id = [] ∧ c.definition? id = none ∧ c.base? id = none ∧ c.interfaces id = []
  /-- Numbers of the same written-out type are the same. -/
  tree_eq_iff : ∀ {a b}, c.tree a = c.tree b ↔ a = b

section

variable {c : Catalog} {id definition : TypeId}

/-- A type parameter belongs to one open definition. The parameters of a
definition stand right behind it, so one of two owners would stand among the
parameters of the other. -/
theorem WellFormed.params_owner (hc : c.WellFormed) {p d d' : TypeId} (h : p ∈ c.params d)
    (h' : p ∈ c.params d') : d = d' := by
  have hbehind : ∀ {d e : TypeId}, p ∈ c.params d → p ∈ c.params e → ¬ d.index < e.index := by
    intro d e hd he hlt
    have hdef := form?_of_mem_params he
    have hown := hc.ownParams (form?_of_mem_params hd)
    rw [hown.following] at hd
    rw [(hc.ownParams hdef).following] at he
    obtain ⟨i, hi, rfl⟩ := List.mem_map.mp hd
    obtain ⟨j, -, heq⟩ := List.mem_map.mp he
    have hindex : e.index + 1 + j = d.index + 1 + i := congrArg TypeId.index heq
    have hat : (c.params d)[e.index - (d.index + 1)]? = some e := by
      rw [hown.following, List.getElem?_map, List.getElem?_range (by
        have := List.mem_range.mp hi
        omega)]
      cases e
      simp only [Option.map_some, Option.some.injEq, TypeId.mk.injEq] at hlt ⊢
      omega
    rw [hown.positions hat] at hdef
    cases hdef
  have hindex : d.index = d'.index := by
    have hle := hbehind h h'
    have hge := hbehind h' h
    omega
  cases d
  cases d'
  exact congrArg TypeId.mk hindex

theorem WellFormed.traitBits_application (hc : c.WellFormed) {node definitionNode : Node}
    {args : List TypeId} (hnode : c.node? id = some node)
    (hform : node.form = .application definition args)
    (hdef : c.node? definition = some definitionNode) :
    node.traitBits + 4 = definitionNode.traitBits := by
  obtain ⟨_, hnode', happ⟩ := hc.appliedTo (form?_eq_some.mpr ⟨node, hnode, hform⟩)
  cases hnode.symm.trans hnode'
  have hkind := happ.kind
  have hisDef := happ.isDefinition
  obtain ⟨params, hparams⟩ := isDefinition_iff.mp hisDef
  rw [kind?, hdef, Option.map_some, Option.some.injEq] at hkind
  rw [form?_of_node? hdef, Option.some.injEq] at hparams
  simp [Node.traitBits, Node.isInterface, Node.isParameter, Node.isDefinition, hform, hparams,
    hkind]

theorem WellFormed.canonical (hc : c.WellFormed) : c.Canonical where
  toWellFormed := hc
  args_known ha := hc.knows_of_mem_args ha
  links_known hlink := (hc.knows_of_inherits hlink).1
  definition_known hdef := by
    obtain ⟨params, hform, -⟩ := hc.form?_of_definition? hdef
    exact knows_of_form? hform
  open_definition hform := ⟨definition?_of_definition hform, args_of_definition hform⟩
  owner := hc.params_owner
  traits := hc.traitBits_application
  depth_eq := hc.depth_eq_treeDepth
  depth_eq_zero := hc.depth_eq_zero
  parameter := by
    intro id hparam
    have hdef := definition?_of_isParameter hparam
    obtain ⟨node, hnode, hnparam⟩ := (Option.any_eq_true _ _).mp hparam
    obtain ⟨hbase, hinterfaces⟩ := (hc.links hnode).ofParameter hnparam
    exact ⟨args_of_definition?_none hdef, hdef, (base?_of_node? hnode).trans hbase,
      (interfaces_of_node? hnode).trans hinterfaces⟩
  tree_eq_iff := ⟨fun h => hc.tree_injective h, fun h => by rw [h]⟩

end

/-- However a catalogue was built, by calls that succeed and calls that are
refused, it has one number for each type, and so has the finished one. -/
theorem reachable_canonical {c : Catalog} (hc : c.Reachable) :
    c.Canonical ∧ ∀ h, c.finish = .ok h → h.catalog.Canonical := by
  exact ⟨hc.wellFormed.canonical, fun h hfinish => (hc.wellFormed.of_finish hfinish).canonical⟩

theorem reachable_canonical_boxes :
    boxes.Reachable ∧ boxes.Canonical ∧ boxes.finish = .ok ⟨boxesFinished⟩ ∧
      boxesFinished.Canonical := by
  obtain ⟨hbuilt, hfinished⟩ := reachable_canonical reachable_boxes
  exact ⟨reachable_boxes, hbuilt, finish_boxes, hfinished _ finish_boxes⟩

end Generics.Catalog

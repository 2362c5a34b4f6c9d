/-
Generics.Proofs.Hierarchy.DeclaredLinks — cycles among definitions are all there can be.

The search for cycles sees the declared links only, between definitions, and it
runs before any application has links. It is enough: whatever an application is
linked to has the definition of something that its own definition declares
(`Expands.declaredUnder`). So a cycle among types that have all their links would
have been one among definitions (`Expands.acyclic`).
-/
import Mathlib.Logic.Relation
import Generics.Proofs.Digraph
import Generics.Proofs.Hierarchy.Materialization

namespace Generics.Catalog

open Relation

/-! ## 1. Declared links, between definitions -/

/-- The type `x` declares a link to a type with the definition `y`. -/
def DeclaredUnder (c : Catalog) (x y : TypeId) : Prop :=
  ∃ link, c.Inherits x link ∧ c.unbound link = y

section

variable {c : Catalog} {id : TypeId} {node : Node}

theorem edge_declaredSupertypes {v w : Nat} :
    Digraph.Edge c.declaredSupertypes v w ↔ c.DeclaredUnder ⟨v⟩ ⟨w⟩ := by
  unfold Digraph.Edge declaredSupertypes DeclaredUnder
  cases hnode : c.node? ⟨v⟩ with
  | none =>
    refine ⟨nofun, ?_⟩
    rintro ⟨link, hlink, -⟩
    obtain ⟨node, hnode', -⟩ := hlink.node?
    rw [hnode] at hnode'
    cases hnode'
  | some node =>
    simp only [inherits_of_node? hnode, List.mem_reverse, List.mem_map, Node.links,
      List.mem_append, Option.mem_toList]
    constructor
    · rintro ⟨link, hlink, rfl⟩
      exact ⟨link, hlink, rfl⟩
    · rintro ⟨link, hlink, heq⟩
      exact ⟨link, hlink, by rw [heq]⟩

theorem WellFormed.knows_unbound (hc : c.WellFormed) (h : c.knows id = true) :
    c.knows (c.unbound id) = true := by
  obtain ⟨node, hnode⟩ := node?_of_knows h
  have hkind : c.kind? id = some node.kind := by rw [kind?, hnode]; rfl
  rw [← hc.kind?_unbound] at hkind
  exact knows_of_kind? hkind

/-- If the search finds no cycle, definitions have ranks that go down along
declared links. -/
theorem WellFormed.exists_rank (hc : c.WellFormed) (h : c.inheritanceCycle? = none) :
    ∃ rank : TypeId → Nat, (∀ id, rank id ≤ c.size) ∧
      ∀ x y, c.DeclaredUnder x y → rank y < rank x := by
  unfold inheritanceCycle? at h
  split at h
  · cases h
  · rename_i order hsearch
    have hbound : ∀ v w, Digraph.Edge c.declaredSupertypes v w → v < c.size ∧ w < c.size := by
      intro v w hedge
      obtain ⟨link, hlink, hw⟩ := edge_declaredSupertypes.mp hedge
      obtain ⟨node, hnode, -⟩ := hlink.node?
      have hw' := knows_iff.mp (hc.knows_unbound (hc.knows_of_inherits hlink).1)
      rw [hw] at hw'
      exact ⟨knows_iff.mp (knows_of_node? hnode), hw'⟩
    obtain ⟨rank, hle, hdown⟩ := Digraph.exists_rank_of_ok hbound hsearch
    exact ⟨fun id => rank id.index, fun id => hle _, fun x y hxy =>
      hdown _ _ (edge_declaredSupertypes.mpr hxy)⟩

/-- A type that the search finds inherits from itself. -/
theorem cycle_of_inheritanceCycle? (h : c.inheritanceCycle? = some id) :
    TransGen c.DeclaredUnder id id := by
  unfold inheritanceCycle? at h
  split at h
  · rename_i index hsearch
    cases h
    exact (Digraph.mem_cycle_of_error hsearch).lift TypeId.mk
      fun v w hedge => edge_declaredSupertypes.mp hedge
  · cases h

/-- The search finds no cycle exactly if there is none. -/
theorem WellFormed.inheritanceCycle?_eq_none_iff (hc : c.WellFormed) :
    c.inheritanceCycle? = none ↔ ∀ id, ¬ TransGen c.DeclaredUnder id id := by
  constructor
  · intro h id hcycle
    obtain ⟨rank, -, hdown⟩ := hc.exists_rank h
    have hlt : ∀ {x y}, TransGen c.DeclaredUnder x y → rank y < rank x := by
      intro x y hxy
      induction hxy with
      | single hstep => exact hdown _ _ hstep
      | tail _ hstep ih => exact Nat.lt_trans (hdown _ _ hstep) ih
    exact Nat.lt_irrefl _ (hlt hcycle)
  · intro hacyclic
    cases hfound : c.inheritanceCycle? with
    | none => rfl
    | some id => exact absurd (cycle_of_inheritanceCycle? hfound) (hacyclic id)

/-- Nothing goes round if types are declared to inherit from older ones only. -/
theorem WellFormed.inheritanceCycle?_eq_none_of_lt (hc : c.WellFormed)
    (h : ∀ v < c.size, ∀ w ∈ c.declaredSupertypes v, w < v) : c.inheritanceCycle? = none := by
  have hstep : ∀ {x y}, c.DeclaredUnder x y → y.index < x.index := by
    intro x y hxy
    have ⟨link, hlink, _⟩ := hxy
    obtain ⟨node, hnode, -⟩ := hlink.node?
    exact h _ (knows_iff.mp (knows_of_node? hnode)) _ (edge_declaredSupertypes.mpr hxy)
  have hlt : ∀ {x y}, TransGen c.DeclaredUnder x y → y.index < x.index := by
    intro x y hxy
    induction hxy with
    | single hxy => exact hstep hxy
    | tail _ hyz ih => exact Nat.lt_trans (hstep hyz) ih
  exact hc.inheritanceCycle?_eq_none_iff.mpr fun id hcycle => Nat.lt_irrefl _ (hlt hcycle)

theorem unbound_of_not_application (hnode : c.node? id = some node)
    (hnot : node.isApplication = false) : c.unbound id = id := by
  rw [unbound]
  cases hdef : c.definition? id with
  | none => rfl
  | some d =>
    rcases definition?_eq_some hdef with ⟨params, -, rfl⟩ | ⟨args, hform⟩
    · rfl
    · obtain ⟨node', hnode', hform'⟩ := form?_eq_some.mp hform
      cases hnode.symm.trans hnode'
      rw [isApplication_iff.mpr ⟨d, args, hform'⟩] at hnot
      cases hnot

end

/-! ## 2. Links of applications, between definitions -/

section

variable {c direct : Catalog} {id link : TypeId}

/-- What an application is linked to has the definition of something that its
own definition declares. -/
theorem Expands.declared_of_application (h : Expands c direct) (hc : c.WellFormed)
    (hdone : direct.Materialized id) {definition : TypeId} {args : List TypeId}
    (hform : direct.form? id = some (.application definition args))
    (hlink : direct.Inherits id link) :
    ∃ declared, c.Inherits definition declared ∧ direct.unbound link = c.unbound declared := by
  obtain ⟨node, hnode, hnform⟩ := form?_eq_some.mp hform
  obtain ⟨dn, hdn, hnot, -, hσ⟩ := h.wellFormed.node?_definition hnode hnform
  have hlinked := hdone hnode hnform hdn
  obtain ⟨declared, hdeclared, htree⟩ : ∃ declared, direct.Inherits definition declared ∧
      direct.tree link = direct.substitutedTree (dn.params.zip args) declared := by
    rcases (inherits_of_node? hnode).mp hlink with hbase | hmem
    · obtain ⟨l, hl, htree⟩ := hlinked.of_base hbase
      exact ⟨l, (inherits_of_node? hdn).mpr (.inl hl), htree⟩
    · obtain ⟨l, hl, htree⟩ := hlinked.of_interface hmem
      exact ⟨l, (inherits_of_node? hdn).mpr (.inr hl), htree⟩
  have hparam := (h.wellFormed.knows_of_inherits hdeclared).2
  rw [inherits_of_node? hdn, ← inherits_of_node? (h.node?_of_not_application hdn hnot)]
    at hdeclared
  refine ⟨declared, hdeclared, ?_⟩
  rw [(h.wellFormed.unbound_of_substituted hσ hparam htree).1,
    h.preserves.unbound (hc.knows_of_inherits hdeclared).1]

/-- Every link leads from definition to definition as some declared link does. -/
theorem Expands.declaredUnder (h : Expands c direct) (hc : c.WellFormed)
    (hdone : direct.Materialized id) (hlink : direct.Inherits id link) :
    c.DeclaredUnder (direct.unbound id) (direct.unbound link) := by
  obtain ⟨node, hnode, -⟩ := hlink.node?
  cases happ : node.isApplication with
  | true =>
    obtain ⟨d, args, hform⟩ := isApplication_iff.mp happ
    have hform' := form?_eq_some.mpr ⟨node, hnode, hform⟩
    obtain ⟨declared, hdeclared, heq⟩ := h.declared_of_application hc hdone hform' hlink
    rw [unbound, definition?_of_application hform', heq]
    exact ⟨declared, hdeclared, rfl⟩
  | false =>
    rw [unbound_of_not_application hnode happ]
    rw [inherits_of_node? hnode, ← inherits_of_node? (h.node?_of_not_application hnode happ)]
      at hlink
    exact ⟨link, hlink, (h.preserves.unbound (hc.knows_of_inherits hlink).1).symm⟩

/-- No type inherits from itself once all links are there. -/
theorem Expands.acyclic (h : Expands c direct) (hc : c.WellFormed)
    (hdone : ∀ id, direct.Materialized id) (hcycle : c.inheritanceCycle? = none) (id : TypeId) :
    ¬ TransGen direct.Inherits id id := by
  intro hpath
  exact hc.inheritanceCycle?_eq_none_iff.mp hcycle (direct.unbound id)
    (hpath.lift direct.unbound fun a b hab => h.declaredUnder hc (hdone a) hab)

end

end Generics.Catalog

/-
Generics.Proofs.Hierarchy.Closure — when a catalogue can be finished, and what
it then holds.

`Needed` says what has to be there. A catalogue without cycles can be finished
exactly if the needed applications are not too many and none of them nests too
deep (`finish_ok_iff_withinLimits`). Then the finished catalogue has the needed
applications, each once, and no others. If it cannot be finished, the refusal is
one of the two that name a limit.

That nothing is missing is an induction on `Needed`: a needed application is
there, so it has its links, and what occurs in a link is there as well.
-/
import Generics.Proofs.Catalog.Applications
import Generics.Proofs.Hierarchy.Acyclic

namespace Generics.Catalog

open Relation TypeTree

/-! ## 1. Everything that is needed -/

section

variable {c direct : Catalog} {t : TypeTree}

theorem LinkedAs.exists_link {σ : Substitution} {node : Node} {base : Option TypeId}
    {interfaces : List TypeId} (h : c.LinkedAs σ node base interfaces) {l : TypeId}
    (hl : node.base = some l ∨ l ∈ node.interfaces) : ∃ r, c.tree r = c.substitutedTree σ l := by
  rcases hl with hbase | hmem
  · have heq := h.base
    rw [hbase, Option.map_some] at heq
    obtain ⟨r, -, hr⟩ := Option.map_eq_some_iff.mp heq
    exact ⟨r, hr⟩
  · have hmem' : c.substitutedTree σ l ∈ interfaces.map c.tree := by
      rw [h.interfaces]
      exact List.mem_map_of_mem hmem
    obtain ⟨r, -, hr⟩ := List.mem_map.mp hmem'
    exact ⟨r, hr⟩

/-- What a materialized application inherits is in the catalogue. -/
theorem Expands.exists_inherited (h : Expands c direct) (hc : c.WellFormed)
    (hdone : ∀ id, direct.Materialized id) {definition link : TypeId} {args : List TypeTree}
    (happ : .apply definition args ∈ direct.appliedTrees) (hlink : c.Inherits definition link) :
    ∃ r, direct.tree r = (c.tree link).replace (filling (c.params definition) args) := by
  obtain ⟨id, d, as, hform, htree⟩ := happ
  rw [h.wellFormed.tree_of_application hform] at htree
  cases htree
  obtain ⟨node, hnode, hnform⟩ := form?_eq_some.mp hform
  obtain ⟨dn, hdn, hnot, -⟩ := h.wellFormed.node?_definition hnode hnform
  have hdn₀ := h.node?_of_not_application hdn hnot
  obtain ⟨r, hr⟩ := (hdone id hnode hnform hdn).exists_link ((inherits_of_node? hdn₀).mp hlink)
  refine ⟨r, ?_⟩
  rw [hr, substitutedTree, assigned_zip, h.preserves.tree (hc.knows_of_inherits hlink).1,
    Catalog.params, hdn₀, Option.map_some, Option.getD_some]

/-- Once every application has its links, the needed applications are there, and
no others. -/
theorem Expands.needed_iff (h : Expands c direct) (hc : c.WellFormed)
    (hdone : ∀ id, direct.Materialized id) : Needed c t ↔ t ∈ direct.appliedTrees := by
  constructor
  · intro hneeded
    induction hneeded with
    | present hform =>
      exact ⟨_, _, _, h.preserves.form? hform, h.preserves.tree (knows_of_form? hform)⟩
    | inherited _ hlink hu ih =>
      refine h.wellFormed.mem_appliedTrees_iff.mpr ⟨?_, ?_⟩
      · rw [isApplied_congr h.params]
        exact hu.2
      · exact h.wellFormed.exists_tree_of_part hu.1 (h.exists_inherited hc hdone ih hlink)
  · rintro ⟨id, d, args, hform, rfl⟩
    obtain ⟨node, hnode, hnform⟩ := form?_eq_some.mp hform
    exact h.needed hnode (isApplication_iff.mpr ⟨d, args, hnform⟩)

/-! ## 2. Limits -/

/-- The needed applications are not too many, and none of them nests too deep. -/
structure WithinLimits (c : Catalog) : Prop where
  count : { t | Needed c t }.encard ≤ Limits.applications
  nesting : ∀ t, Needed c t → c.treeDepth t ≤ Limits.nesting

/-- The refusals that name a limit, each with what exceeds it. -/
inductive ExceedsLimit (c : Catalog) : CatalogError → Prop
  | nesting {t : TypeTree} (name : String) (ht : Needed c t) (h : Limits.nesting < c.treeDepth t) :
      ExceedsLimit c (.nestingTooDeep name)
  | count (h : Limits.applications < { t | Needed c t }.encard) :
      ExceedsLimit c .tooManyApplications

theorem ExceedsLimit.not_withinLimits {e : CatalogError} (h : ExceedsLimit c e) :
    ¬ c.WithinLimits := by
  intro hwithin
  cases h with
  | nesting _ ht hlt => exact absurd (hwithin.nesting _ ht) (Nat.not_le.mpr hlt)
  | count hlt => exact absurd hwithin.count (not_le.mpr hlt)

theorem Expands.withinLimits (h : Expands c direct) (hc : c.WellFormed)
    (hdone : ∀ id, direct.Materialized id) : c.WithinLimits where
  count := by
    have hset : { t | Needed c t } = direct.appliedTrees :=
      Set.ext fun t => h.needed_iff hc hdone
    rw [hset, h.wellFormed.encard_appliedTrees]
    exact_mod_cast h.wellFormed.room
  nesting := by
    intro t ht
    obtain ⟨id, d, args, hform, rfl⟩ := (h.needed_iff hc hdone).mp ht
    obtain ⟨node, hnode, happ⟩ := h.wellFormed.appliedTo hform
    rw [← treeDepth_congr h.params, ← h.wellFormed.depth_eq_treeDepth, depth, hnode]
    exact happ.nesting

/-- A refusal on the way means that a limit is exceeded by what is needed. If
there is no room for a needed application, those that are there are needed
too. -/
theorem Expands.exceedsLimit (h : Expands c direct) {e : CatalogError}
    (hrefused : Refused (Needed c) direct e) : ExceedsLimit c e := by
  cases hrefused with
  | tooDeep ht hlt =>
    rw [treeDepth_congr h.params] at hlt
    exact .nesting _ ht hlt
  | @tooMany t ht hnew hfull =>
    refine .count ?_
    have hsub : insert t direct.appliedTrees ⊆ { t | Needed c t } := by
      rintro u (rfl | ⟨id, d, args, hform, rfl⟩)
      · exact ht
      · obtain ⟨node, hnode, hnform⟩ := form?_eq_some.mp hform
        exact h.needed hnode (isApplication_iff.mpr ⟨d, args, hnform⟩)
    have hnot : t ∉ direct.appliedTrees := fun ⟨id, _, _, _, hid⟩ => hnew id hid
    have hcard := Set.encard_le_encard hsub
    rw [Set.encard_insert_of_notMem hnot, h.wellFormed.encard_appliedTrees] at hcard
    refine lt_of_lt_of_le ?_ hcard
    exact_mod_cast Nat.lt_succ_of_le hfull

end

/-! ## 3. Finishing -/

/-- A refusal to finish a catalogue without cycles. -/
theorem WellFormed.exceedsLimit_of_finish {c : Catalog} {e : CatalogError} (hc : c.WellFormed)
    (hacyclic : c.inheritanceCycle? = none) (hfinish : c.finish = .error e) :
    ExceedsLimit c e := by
  unfold finish at hfinish
  rw [hacyclic] at hfinish
  simp only at hfinish
  split at hfinish
  · rename_i direct hrun
    cases hfinish
    obtain ⟨hexpands, hrefused⟩ := hc.refused_of_error hrun
    exact hexpands.exceedsLimit hrefused
  · cases hfinish

/-- A catalogue whose declared links have no cycle between definitions can be
finished exactly if what is needed is within the limits. The applications of the
finished catalogue are the needed ones, and each is one type. A refusal is one
of those that name a limit, and that limit is exceeded. -/
theorem finish_ok_iff_withinLimits {c : Catalog} (hc : c.Reachable)
    (hacyclic : ∀ id, ¬ TransGen c.DeclaredUnder id id) :
    ((∃ h, c.finish = .ok h) ↔ c.WithinLimits) ∧
      (∀ h, c.finish = .ok h →
        (∀ id definition args, h.catalog.form? id = some (.application definition args) →
          Needed c (h.catalog.tree id)) ∧
        ∀ t, Needed c t → ∃! id, (∃ definition args,
          h.catalog.form? id = some (.application definition args)) ∧ h.catalog.tree id = t) ∧
      ∀ e, c.finish = .error e → ExceedsLimit c e := by
  have hcycle := hc.wellFormed.inheritanceCycle?_eq_none_iff.mpr hacyclic
  have herror : ∀ e, c.finish = .error e → ExceedsLimit c e := fun e he =>
    hc.wellFormed.exceedsLimit_of_finish hcycle he
  refine ⟨⟨?_, fun hwithin => ?_⟩, ?_, herror⟩
  · rintro ⟨h, hfinish⟩
    obtain ⟨-, direct, hrun, rfl⟩ := finish_eq_ok_iff.mp hfinish
    obtain ⟨hexpands, hdone⟩ := hc.wellFormed.expands_of_ok hrun
    exact hexpands.withinLimits hc.wellFormed hdone
  · cases hfinish : c.finish with
    | ok h => exact ⟨h, rfl⟩
    | error e => exact absurd hwithin (herror e hfinish).not_withinLimits
  · intro h hfinish
    obtain ⟨-, direct, hrun, rfl⟩ := finish_eq_ok_iff.mp hfinish
    obtain ⟨hexpands, hdone⟩ := hc.wellFormed.expands_of_ok hrun
    simp only [form?_withInheritedInterfaces, tree_withInheritedInterfaces]
    refine ⟨fun id d args hform => ?_, fun t ht => ?_⟩
    · exact (hexpands.needed_iff hc.wellFormed hdone).mpr ⟨id, d, args, hform, rfl⟩
    · obtain ⟨id, d, args, hform, htree⟩ := (hexpands.needed_iff hc.wellFormed hdone).mp ht
      exact ⟨id, ⟨⟨d, args, hform⟩, htree⟩, fun other hother =>
        hexpands.wellFormed.tree_injective (hother.2.trans htree.symm)⟩

/-- What `boxes` needs is within the limits, and `Box<string>`, which is not in
it, is one type of the finished catalogue. -/
theorem finish_ok_iff_withinLimits_boxes :
    (boxes.Reachable ∧ ∀ id, ¬ TransGen boxes.DeclaredUnder id id) ∧ boxes.WithinLimits ∧
      Needed boxes (boxesFinished.tree ⟨7⟩) ∧
      ∃! id, (∃ definition args, boxesFinished.form? id = some (.application definition args)) ∧
        boxesFinished.tree id = boxesFinished.tree ⟨7⟩ := by
  have hacyclic := reachable_boxes.wellFormed.inheritanceCycle?_eq_none_iff.mp
    inheritanceCycle?_boxes
  obtain ⟨hiff, hok, -⟩ := finish_ok_iff_withinLimits reachable_boxes hacyclic
  obtain ⟨hneeded, hunique⟩ := hok ⟨boxesFinished⟩ finish_boxes
  have hbox := hneeded ⟨7⟩ ⟨0⟩ [⟨5⟩] rfl
  exact ⟨⟨reachable_boxes, hacyclic⟩, hiff.mp ⟨_, finish_boxes⟩, hbox, hunique _ hbox⟩

end Generics.Catalog

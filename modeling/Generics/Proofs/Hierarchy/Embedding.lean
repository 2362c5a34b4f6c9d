/-
Generics.Proofs.Hierarchy.Embedding — finishing an embedded catalogue.

What an embedded catalogue needs is needed, renamed, by the larger one. So if the
larger one can be finished, the embedded one can (`Embeds.finish_ok`), and the
finished catalogues are embedded in each other in the same way
(`Embeds.of_finish`): applications go where their trees do, their links are
worked out from the same declared ones, and the lists of inherited interfaces
solve the same equation, so they come out in the same order.
-/
import Generics.Proofs.Catalog.Following
import Generics.Proofs.Distinct
import Generics.Proofs.Hierarchy.Closure
import Generics.Proofs.Hierarchy.Inheritance

namespace Generics.Catalog

open Relation TypeTree

namespace Embeds

variable {φ : TypeId → TypeId} {c c' : Catalog} {id link x y : TypeId} {t : TypeTree}

/-! ## 1. What is needed -/

theorem inherits (h : Embeds φ c c') (hlink : c.Inherits id link) :
    c'.Inherits (φ id) (φ link) := by
  rcases hlink with hbase | hmem
  · exact .inl (by rw [h.base?, hbase, Option.map_some])
  · exact .inr (by rw [h.interfaces]; exact List.mem_map_of_mem hmem)

theorem declaredUnder (h : Embeds φ c c') (hxy : c.DeclaredUnder x y) :
    c'.DeclaredUnder (φ x) (φ y) := by
  obtain ⟨link, hlink, rfl⟩ := hxy
  exact ⟨φ link, h.inherits hlink, h.unbound link⟩

theorem replace_filling (h : Embeds φ c c') (d link : TypeId) (args : List TypeTree) :
    ((c.tree link).replace (filling (c.params d) args)).rename φ =
      (c'.tree (φ link)).replace (filling (c'.params (φ d)) (args.map (rename φ))) := by
  rw [h.tree, h.params]
  exact rename_replace (filling_rename h.injective (c.params d) args) (c.tree link)

theorem needed (h : Embeds φ c c') (ht : Needed c t) : Needed c' (t.rename φ) := by
  induction ht with
  | @present id d args hform =>
    have hform' : c'.form? (φ id) = some (.application (φ d) (args.map φ)) := by
      rw [h.form?, hform]
      rfl
    rw [← h.tree]
    exact .present hform'
  | @inherited d link args u _ hlink hu ih =>
    rw [rename_apply] at ih
    refine .inherited ih (h.inherits hlink) ?_
    rw [← h.replace_filling]
    exact ⟨hu.1.rename φ, by rw [isApplied_rename h.injective h.params]; exact hu.2⟩

theorem withinLimits (h : Embeds φ c c') (hlimits : c'.WithinLimits) : c.WithinLimits where
  count := by
    have himage : rename φ '' { t | Needed c t } ⊆ { t | Needed c' t } := by
      rintro _ ⟨t, ht, rfl⟩
      exact h.needed ht
    rw [← (rename_injective h.injective).encard_image]
    exact (Set.encard_le_encard himage).trans hlimits.count
  nesting := by
    intro t ht
    rw [← treeDepth_rename h.injective h.params]
    exact hlimits.nesting _ (h.needed ht)

/-- If the larger catalogue can be finished, the embedded one can. -/
theorem finish_ok (h : Embeds φ c c') {finished' : Hierarchy}
    (hfinish' : c'.finish = .ok finished') : ∃ finished, c.finish = .ok finished := by
  obtain ⟨direct', hcomplete', -⟩ := h.target.completes_of_finish hfinish'
  have hcycle : c.inheritanceCycle? = none := by
    refine h.source.inheritanceCycle?_eq_none_iff.mpr fun id hround => ?_
    exact h.target.inheritanceCycle?_eq_none_iff.mp hcomplete'.noCycle (φ id)
      (hround.lift φ fun x y hxy => h.declaredUnder hxy)
  cases hfinish : c.finish with
  | ok finished => exact ⟨finished, rfl⟩
  | error e =>
    exact absurd (h.withinLimits (hcomplete'.withinLimits h.target hcomplete'.materialized))
      (h.source.exceedsLimit_of_finish hcycle hfinish).not_withinLimits

/-! ## 2. Completed catalogues -/

section

variable {direct direct' : Catalog}

theorem tree_of_knows (h : Embeds φ c c') (hd : Completes c direct) (hd' : Completes c' direct')
    (hx : c.knows x = true) : direct'.tree (φ x) = (direct.tree x).rename φ := by
  rw [hd.preserves.tree hx, hd'.preserves.tree (by rw [h.knows]; exact hx), h.tree]

theorem node?_of_not_application (h : Embeds φ c c') (hd : Completes c direct)
    (hd' : Completes c' direct') {n : Node} (hnode : direct.node? x = some n)
    (hnot : n.isApplication = false) :
    c.node? x = some n ∧ direct'.node? (φ x) = some (n.rename φ) := by
  have hnode₀ := hd.node?_of_not_application hnode hnot
  refine ⟨hnode₀, hd'.kept (by rw [h.node?, hnode₀, Option.map_some]) ?_⟩
  rw [Node.isApplication, Node.form_rename]
  cases hform : n.form <;> simp_all [Node.isApplication, Form.rename]

theorem follows (h : Embeds φ c c') (hd : Completes c direct) (hd' : Completes c' direct') :
    Follows φ direct direct' where
  source := hd.wellFormed
  target := hd'.wellFormed
  injective := h.injective
  declared := by
    intro x n hnode hnot
    exact ⟨n.rename φ, (h.node?_of_not_application hd hd' hnode hnot).2, rfl, rfl, rfl⟩
  trees := by
    intro x hx
    obtain ⟨n, hnode⟩ := node?_of_knows hx
    cases happ : n.isApplication with
    | false =>
      have hknown := knows_of_node? (h.node?_of_not_application hd hd' hnode happ).1
      exact ⟨φ x, h.tree_of_knows hd hd' hknown⟩
    | true =>
      have hneeded := h.needed (hd.needed hnode happ)
      obtain ⟨y, -, -, -, hy⟩ := (hd'.needed_iff h.target hd'.materialized).mp hneeded
      exact ⟨y, hy⟩

/-- Declared links correspond. -/
theorem linksRenamed_of_declared (h : Embeds φ c c') (hd : Completes c direct)
    (hd' : Completes c' direct') {n : Node} (hnode : direct.node? x = some n)
    (hnot : n.isApplication = false) : LinksRenamed φ direct direct' x (φ x) := by
  obtain ⟨hnode₀, hnode'⟩ := h.node?_of_not_application hd hd' hnode hnot
  have htree : ∀ link, n.base = some link ∨ link ∈ n.interfaces →
      direct'.tree (φ link) = (direct.tree link).rename φ := fun link hlink =>
    h.tree_of_knows hd hd'
      (h.source.knows_of_inherits ((inherits_of_node? hnode₀).mpr hlink)).1
  refine ⟨?_, ?_⟩
  · rw [base?_of_node? hnode, base?_of_node? hnode', Node.base_rename, Option.map_map]
    exact Option.map_congr fun b hb => htree b (.inl hb)
  · rw [interfaces_of_node? hnode, interfaces_of_node? hnode', Node.interfaces_rename,
      List.map_map]
    exact List.map_congr_left fun i hi => htree i (.inr hi)

/-- The links of applications correspond: they come from declared ones. -/
theorem linksRenamed_of_application (h : Embeds φ c c') (hd : Completes c direct)
    (hd' : Completes c' direct') {d : TypeId} {args : List TypeId}
    (hform : direct.form? x = some (.application d args))
    (htree : direct'.tree y = (direct.tree x).rename φ) :
    LinksRenamed φ direct direct' x y := by
  have hf := h.follows hd hd'
  obtain ⟨args', hform', hargs⟩ := hf.form?_application hform htree
  obtain ⟨params, hparams, -⟩ :=
    hd.wellFormed.form?_of_definition? (definition?_of_application hform)
  obtain ⟨dn, hdn, hdnForm⟩ := form?_eq_some.mp hparams
  have hdeclared := h.linksRenamed_of_declared hd hd' hdn (by rw [Node.isApplication, hdnForm])
  have hlinks := hd.linksReplaced_definition (definition?_of_application hform)
  have hlinks' := hd'.linksReplaced_definition (definition?_of_application hform')
  rw [args_of_application hform, params_of_definition hparams] at hlinks
  rw [args_of_application hform', params_of_definition (hf.form?_definition hparams), hargs]
    at hlinks'
  -- renaming and filling in arguments can be done in either order
  have hcommute := rename_replace (filling_rename h.injective params (args.map direct.tree))
  generalize filling (params.map φ) ((args.map direct.tree).map (rename φ)) = τ at hlinks' hcommute
  generalize filling params (args.map direct.tree) = σ at hlinks hcommute
  refine ⟨?_, ?_⟩
  · calc (direct'.base? y).map direct'.tree
      _ = ((direct'.base? (φ d)).map direct'.tree).map (replace τ) := by
          rw [hlinks'.base, Option.map_map]
          rfl
      _ = ((direct.base? d).map fun b => (direct.tree b).replace σ).map (rename φ) := by
          rw [hdeclared.base, Option.map_map, Option.map_map]
          exact Option.map_congr fun b _ => (hcommute (direct.tree b)).symm
      _ = (direct.base? x).map fun b => (direct.tree b).rename φ := by
          rw [← hlinks.base, Option.map_map]
          rfl
  · calc (direct'.interfaces y).map direct'.tree
      _ = ((direct'.interfaces (φ d)).map direct'.tree).map (replace τ) := by
          rw [hlinks'.interfaces, List.map_map]
          rfl
      _ = ((direct.interfaces d).map fun i => (direct.tree i).replace σ).map (rename φ) := by
          rw [hdeclared.interfaces, List.map_map, List.map_map]
          exact List.map_congr_left fun i _ => (hcommute (direct.tree i)).symm
      _ = (direct.interfaces x).map fun i => (direct.tree i).rename φ := by
          rw [← hlinks.interfaces, List.map_map]
          rfl

/-- Completed catalogues are embedded as those are that they complete. -/
theorem completed (h : Embeds φ c c') (hd : Completes c direct) (hd' : Completes c' direct') :
    Embeds (renamingOn direct.knows direct'.size (carried φ direct direct')) direct direct' := by
  have hf := h.follows hd hd'
  refine hf.embeds (fun x hx => ?_) fun name => ?_
  · obtain ⟨n, hnode⟩ := node?_of_knows hx
    cases happ : n.isApplication with
    | false =>
      rw [hf.carried_of_declared hnode happ]
      exact h.linksRenamed_of_declared hd hd' hnode happ
    | true =>
      obtain ⟨d, args, hform⟩ := isApplication_iff.mp happ
      exact h.linksRenamed_of_application hd hd' (form?_eq_some.mpr ⟨n, hnode, hform⟩)
        (hf.tree_carried hx)
  · rw [Catalog.lookupName?, Catalog.lookupName?, hd.declared, hd'.declared]
    exact h.lookupName? name

/-! ## 3. Inherited interfaces -/

/-- The lists of inherited interfaces correspond, in their order. -/
theorem listedInterfaces (hdirect : Embeds φ direct direct') (hd : Completes c direct)
    (hd' : Completes c' direct') (x : TypeId) :
    direct'.listedInterfaces (φ x) = (direct.listedInterfaces x).map φ := by
  obtain ⟨rank, hdown⟩ := hd.exists_rank
  induction hn : rank x using Nat.strongRecOn generalizing x with
  | ind n ih =>
    have hlink : ∀ link, direct.Inherits x link →
        direct'.listedInterfaces (φ link) = (direct.listedInterfaces link).map φ :=
      fun link hlink => ih (rank link) (hn ▸ hdown x link hlink) link rfl
    have hflat : ∀ links : List TypeId, (∀ link ∈ links, direct.Inherits x link) →
        (links.map φ).flatMap direct'.listedInterfaces =
          (links.flatMap direct.listedInterfaces).map φ := by
      intro links hlinks
      rw [List.flatMap_map, List.map_flatMap, List.flatMap_def, List.flatMap_def]
      exact congrArg List.flatten (List.map_congr_left fun link hl => hlink link (hlinks link hl))
    rw [hd.listsInterfaces x, hd'.listsInterfaces (φ x), hdirect.interfaces,
      hdirect.base?, Option.toList_map, hflat _ fun link hl => .inr hl,
      hflat _ fun link hl => .inl (Option.mem_toList.mp hl), ← List.map_append, ← List.map_append,
      eraseDups_map hdirect.injective]

theorem withInheritedInterfaces (hdirect : Embeds φ direct direct') (hd : Completes c direct)
    (hd' : Completes c' direct') :
    Embeds φ direct.withInheritedInterfaces direct'.withInheritedInterfaces where
  source := hdirect.source.withInheritedInterfaces hd.not_transGen
  target := hdirect.target.withInheritedInterfaces hd'.not_transGen
  injective := hdirect.injective
  node? := by
    intro id
    rw [node?_withInheritedInterfaces, node?_withInheritedInterfaces, hdirect.node?,
      hdirect.listedInterfaces hd hd', Option.map_map, Option.map_map]
    rfl
  lookupName? := hdirect.lookupName?

end

/-! ## 4. Finished catalogues -/

/-- Finished catalogues are embedded, and types that were there before go where they
went. -/
theorem of_finish (h : Embeds φ c c') {finished finished' : Hierarchy}
    (hfinish : c.finish = .ok finished) (hfinish' : c'.finish = .ok finished') :
    ∃ ψ, Embeds ψ finished.catalog finished'.catalog ∧ ∀ x, c.knows x = true → ψ x = φ x := by
  obtain ⟨direct, hd, rfl⟩ := h.source.completes_of_finish hfinish
  obtain ⟨direct', hd', rfl⟩ := h.target.completes_of_finish hfinish'
  refine ⟨_, (h.completed hd hd').withInheritedInterfaces hd hd', fun x hx => ?_⟩
  rw [renamingOn_of_pos (hd.preserves.knows hx)]
  exact (h.follows hd hd').carried_eq (h.tree_of_knows hd hd' hx)

end Embeds

end Generics.Catalog

/-
Generics.Proofs.Hierarchy.DirectLinks — the links that finishing gives to
applications.

An application declares nothing. What it is linked to is what its definition
declares, with its arguments for the parameters, all at once: a parameter that
stands in an argument is not filled in again. This holds of every application of
the finished catalogue, also of those that finishing has made itself, and whatever
type parameters a declared link mentions.

The list of interfaces goes on after the direct ones with those that are
inherited, so it is the beginning of the list that is described here.
-/
import Generics.Proofs.Hierarchy.Inheritance

namespace Generics.Catalog

open TypeTree

/-! ## 1. What definitions declare -/

section

variable {c direct : Catalog} {id definition : TypeId} {params : List TypeId}

/-- Links that an open definition declares are those it has once applications have
theirs. -/
theorem Expands.links_of_definition (h : Expands c direct)
    (hform : direct.form? definition = some (.definition params)) :
    direct.base? definition = c.base? definition ∧
      direct.interfaces definition = c.interfaces definition := by
  obtain ⟨node, hnode, hnform⟩ := form?_eq_some.mp hform
  have hdeclared := h.node?_of_not_application hnode (by simp [Node.isApplication, hnform])
  simp [base?, interfaces, hnode, hdeclared]

/-- An application is linked to what its definition declares, as trees. -/
theorem Completes.links_of_application (h : Completes c direct) {args : List TypeId}
    (hform : direct.form? id = some (.application definition args)) :
    (direct.base? id).map direct.tree = (c.base? definition).map (fun b =>
        (c.tree b).replace (filling (c.params definition) (args.map direct.tree))) ∧
      (direct.interfaces id).map direct.tree = (c.interfaces definition).map fun i =>
        (c.tree i).replace (filling (c.params definition) (args.map direct.tree)) := by
  have hdef := definition?_of_application hform
  obtain ⟨params, hparams, -⟩ := h.wellFormed.form?_of_definition? hdef
  obtain ⟨hbase, hinterfaces⟩ := h.links_of_definition hparams
  have hlinks := h.linksReplaced_definition hdef
  rw [args_of_application hform, h.params] at hlinks
  have htree : ∀ link, c.Inherits definition link → direct.tree link = c.tree link :=
    fun link hlink => h.preserves.tree (h.wellFormed₀.knows_of_inherits hlink).1
  constructor
  · rw [hlinks.base, hbase]
    exact Option.map_congr fun b hb => by rw [htree b (.inl hb)]
  · rw [hlinks.interfaces, hinterfaces]
    exact List.map_congr_left fun i hi => by rw [htree i (.inr hi)]

end

/-! ## 2. Finished catalogues -/

/-- Every application of a finished catalogue has the base that its definition
declares, and none if that declares none, and its interfaces begin with those that its
definition declares, in their order. In both, arguments stand for parameters; where
two interfaces have become equal by this, the first stays. -/
theorem application_links {c : Catalog} {h : Hierarchy} (hc : c.Reachable)
    (hfinish : c.finish = .ok h) {id definition : TypeId} {args : List TypeId}
    (hform : h.catalog.form? id = some (.application definition args)) :
    (h.catalog.base? id).map h.catalog.tree = (c.base? definition).map (fun b =>
        (c.tree b).replace (filling (c.params definition) (args.map h.catalog.tree))) ∧
      ∃ declared : List TypeId,
        declared.map h.catalog.tree = (c.interfaces definition).map (fun i =>
          (c.tree i).replace (filling (c.params definition) (args.map h.catalog.tree))) ∧
        declared.eraseDups <+: h.catalog.interfaces id := by
  obtain ⟨direct, hcomplete, rfl⟩ := hc.wellFormed.completes_of_finish hfinish
  have hsame : direct.withInheritedInterfaces.tree = direct.tree :=
    funext fun x => tree_withInheritedInterfaces direct x
  rw [form?_withInheritedInterfaces] at hform
  obtain ⟨hbase, hinterfaces⟩ := hcomplete.links_of_application hform
  simp only [hsame, base?_withInheritedInterfaces,
    interfaces_withInheritedInterfaces (knows_of_form? hform)]
  exact ⟨hbase, direct.interfaces id, hinterfaces, hcomplete.interfaces_isPrefix id⟩

/-- `Pair<string, string>` has the base `Box<string>`, and its interfaces begin with what
`Key<A>` and `Key<B>` have become. -/
theorem application_links_pairs :
    (pairs.Reachable ∧ pairs.finish = .ok ⟨pairsFinished⟩ ∧
      pairsFinished.form? ⟨11⟩ = some (.application ⟨4⟩ [⟨10⟩, ⟨10⟩])) ∧
    (pairsFinished.base? ⟨11⟩).map pairsFinished.tree = some ((pairs.tree ⟨7⟩).replace
      (filling [⟨5⟩, ⟨6⟩] ([⟨10⟩, ⟨10⟩].map pairsFinished.tree))) ∧
    ∃ declared : List TypeId,
      declared.map pairsFinished.tree = [⟨8⟩, ⟨9⟩].map (fun i =>
        (pairs.tree i).replace (filling [⟨5⟩, ⟨6⟩] ([⟨10⟩, ⟨10⟩].map pairsFinished.tree))) ∧
      declared.eraseDups <+: pairsFinished.interfaces ⟨11⟩ := by
  have hform : pairsFinished.form? ⟨11⟩ = some (.application ⟨4⟩ [⟨10⟩, ⟨10⟩]) :=
    form?_withInheritedInterfaces pairsLinked ⟨11⟩
  exact ⟨⟨reachable_pairs, finish_pairs, hform⟩,
    application_links reachable_pairs finish_pairs hform⟩

end Generics.Catalog

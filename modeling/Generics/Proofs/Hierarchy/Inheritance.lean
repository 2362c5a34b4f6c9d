/-
Generics.Proofs.Hierarchy.Inheritance — inheritance commutes with substitution.

Finishing substitutes into one link at a time. Bases of bases and inherited
interfaces are read off afterwards, from links that were each substituted into on
their own. Still, what an application inherits is what its definition inherits,
with the arguments of the application for the parameters of the definition: the
whole chain of bases, and the whole list of interfaces, from which those go that
have become equal to an earlier one.

This needs that a declared link mentions no type parameters but those of the type
that declares it (`Scoped`). Then the links of a type follow every replacement of
leaves in the type (`Completes.linksReplaced`), and the rest is induction along
links.
-/
import Generics.Proofs.Ancestor
import Generics.Proofs.Distinct
import Generics.Proofs.Hierarchy.Canonical
import Generics.Proofs.Hierarchy.Flattening
import Generics.Proofs.Occurrence

namespace Generics.Catalog

open TypeTree

/-- What a type declares to inherit mentions no type parameters other than its own. -/
def Scoped (c : Catalog) : Prop :=
  ∀ ⦃id link⦄, c.Inherits id link → ∀ ⦃path p⦄, c.Leads link path p → c.isParameter p = true →
    p ∈ c.params id

/-- The links of `y` are those of `x` with their leaves replaced. -/
structure LinksReplaced (c : Catalog) (σ : TypeId → TypeTree) (x y : TypeId) : Prop where
  base : (c.base? y).map c.tree = (c.base? x).map fun b => (c.tree b).replace σ
  interfaces : (c.interfaces y).map c.tree = (c.interfaces x).map fun i => (c.tree i).replace σ

/-! ## 1. Leaves of links -/

section

variable {c : Catalog} {id p d : TypeId}

/-- A leaf of a written-out type is found at the end of a path. -/
theorem WellFormed.leads_of_part (hc : c.WellFormed) (h : Part (leaf p) (c.tree id)) :
    ∃ path, c.Leads id path p := by
  generalize ht : c.tree id = t at h
  generalize hu : leaf p = u at h
  induction h generalizing id with
  | refl =>
    rw [← hu] at ht
    cases hc.eq_of_tree_eq_leaf ht
    exact ⟨[], .here _⟩
  | arg hmem _ ih =>
    obtain ⟨-, rfl⟩ := hc.definition?_of_tree ht
    obtain ⟨a, ha, htree⟩ := List.mem_map.mp hmem
    obtain ⟨path, hleads⟩ := ih htree
    obtain ⟨index, hindex⟩ := List.getElem?_of_mem ha
    exact ⟨index :: path, .into hindex hleads⟩

theorem params_of_definition?_none (h : c.definition? id = none) : c.params id = [] := by
  refine List.eq_nil_iff_forall_not_mem.mpr fun p hp => ?_
  rw [definition?_of_definition (form?_of_mem_params hp)] at h
  cases h

theorem WellFormed.nodup_params (hc : c.WellFormed) (d : TypeId) : (c.params d).Nodup := by
  cases hparams : c.params d with
  | nil => exact List.nodup_nil
  | cons p rest =>
    have hp : p ∈ c.params d := by rw [hparams]; exact List.mem_cons_self
    rw [← hparams, (hc.ownParams (form?_of_mem_params hp)).following]
    refine List.nodup_range.map fun i j hij => ?_
    have hindex := congrArg TypeId.index hij
    simp only at hindex
    omega

/-- Arguments for parameters: leaves that are no parameters stay. -/
theorem WellFormed.filling_of_not_isParameter (hc : c.WellFormed) (d : TypeId)
    (args : List TypeTree) (hp : c.isParameter p = false) :
    filling (c.params d) args p = leaf p := by
  refine filling_of_not_mem (fun hmem => ?_) args
  rw [hc.isParameter_of_mem_params (form?_of_mem_params hmem) hmem] at hp
  cases hp

end

/-! ## 2. One step -/

namespace Completes

variable {c direct : Catalog} {x y d link p : TypeId} {σ : TypeId → TypeTree}

/-- Types that are not applications have the declared links. -/
theorem inherits_of_definition? (h : Completes c direct)
    (hdef : ∀ e, direct.definition? d = some e → e = d) (hlink : direct.Inherits d link) :
    c.Inherits d link := by
  obtain ⟨node, hnode, hmem⟩ := hlink.node?
  have hnot : node.isApplication = false := by
    refine Bool.eq_false_iff.mpr fun happ => ?_
    obtain ⟨e, args, hform⟩ := isApplication_iff.mp happ
    have hform' := form?_eq_some.mpr ⟨node, hnode, hform⟩
    cases hdef e (definition?_of_application hform')
    obtain ⟨_, -, hto⟩ := h.wellFormed.appliedTo hform'
    exact Nat.lt_irrefl _ hto.definition_older
  exact (inherits_of_node? (h.node?_of_not_application hnode hnot)).mpr hmem

/-- The leaves of a declared link are parameters of the type that declares it, and
types that are not parameters. -/
theorem leaf_cases (h : Completes c direct) (hscoped : c.Scoped) (hlink : c.Inherits d link)
    (hpart : Part (leaf p) (direct.tree link)) :
    p ∈ direct.params d ∨ direct.isParameter p = false := by
  rw [h.preserves.tree (h.wellFormed₀.knows_of_inherits hlink).1] at hpart
  obtain ⟨path, hleads⟩ := h.wellFormed₀.leads_of_part hpart
  cases hparam : direct.isParameter p with
  | false => exact .inr rfl
  | true =>
    obtain ⟨node, hnode, hnparam⟩ := (Option.any_eq_true _ _).mp hparam
    have hnot : node.isApplication = false := by
      unfold Node.isParameter at hnparam
      unfold Node.isApplication
      split at hnparam
      · rename_i hform
        rw [hform]
      · cases hnparam
    have hparam₀ : c.isParameter p = true := by
      rw [isParameter, h.node?_of_not_application hnode hnot]
      exact hnparam
    rw [h.params]
    exact .inl (hscoped hlink hleads hparam₀)

/-- A generic type has the links of its definition, with its arguments for the
parameters. -/
theorem linksReplaced_definition (h : Completes c direct) (hdef : direct.definition? x = some d) :
    direct.LinksReplaced (filling (direct.params d) ((direct.args x).map direct.tree)) d x := by
  rcases definition?_eq_some hdef with ⟨params, hform, rfl⟩ | ⟨args, hform⟩
  · -- an open definition has its own parameters for arguments
    have hself : ∀ t : TypeTree,
        t.replace (filling (direct.params d) ((direct.args d).map direct.tree)) = t := by
      intro t
      refine replace_eq_self fun p _ => ?_
      rw [args_of_definition hform, params_of_definition hform]
      by_cases hp : p ∈ params
      · rw [filling_map_of_mem hp, h.wellFormed.tree_of_mem_params hform hp]
      · exact filling_of_not_mem hp _
    constructor <;> simp only [hself]
  · obtain ⟨node, hnode, hnform⟩ := form?_eq_some.mp hform
    obtain ⟨dn, hdn, -⟩ := h.wellFormed.node?_definition hnode hnform
    have hlinked := h.materialized x hnode hnform hdn
    have hassigned : direct.assigned (dn.params.zip args) =
        filling (direct.params d) ((direct.args x).map direct.tree) := by
      rw [assigned_zip, args_of_application hform, params, hdn]
      rfl
    refine ⟨?_, ?_⟩
    · rw [base?_of_node? hnode, base?_of_node? hdn, hlinked.base, ← hassigned]
      rfl
    · rw [interfaces_of_node? hnode, interfaces_of_node? hdn, hlinked.interfaces, ← hassigned]
      rfl

/-- If leaves are replaced in a type, they are replaced in its links. -/
theorem linksReplaced (h : Completes c direct) (hscoped : c.Scoped)
    (hσ : ∀ id, direct.isParameter id = false → σ id = leaf id)
    (hx : direct.isParameter x = false) (hy : direct.tree y = (direct.tree x).replace σ) :
    direct.LinksReplaced σ x y := by
  have hwf := h.wellFormed
  cases hdef : direct.definition? x with
  | none =>
    rw [tree_of_definition?_none hdef, replace_leaf, hσ x hx] at hy
    cases hwf.eq_of_tree_eq_leaf hy
    have hself : ∀ link, direct.Inherits x link →
        (direct.tree link).replace σ = direct.tree link := by
      intro link hlink
      have hdeclared := h.inherits_of_definition? (by rw [hdef]; nofun) hlink
      refine replace_eq_self fun p hp => hσ p ?_
      rcases h.leaf_cases hscoped hdeclared hp with hmem | hnot
      · rw [params_of_definition?_none hdef] at hmem
        cases hmem
      · exact hnot
    refine ⟨?_, ?_⟩
    · exact Option.map_congr fun b hb => (hself b (.inl hb)).symm
    · exact List.map_congr_left fun i hi => (hself i (.inr hi)).symm
  | some d =>
    obtain ⟨params, hform, hlength⟩ := hwf.form?_of_definition? hdef
    rw [hwf.tree_of_definition? hdef, replace_apply] at hy
    obtain ⟨hdef', hargs⟩ := hwf.definition?_of_tree hy
    have hlinksx := h.linksReplaced_definition hdef
    have hlinksy := h.linksReplaced_definition hdef'
    rw [hargs] at hlinksy
    have hcompose : ∀ link, direct.Inherits d link →
        (direct.tree link).replace (filling (direct.params d)
            (((direct.args x).map direct.tree).map (replace σ))) =
          ((direct.tree link).replace (filling (direct.params d)
            ((direct.args x).map direct.tree))).replace σ := by
      intro link hlink
      have hdeclared := h.inherits_of_definition? (by
        intro e he
        rw [definition?_of_definition hform] at he
        exact (Option.some.inj he).symm) hlink
      rw [replace_replace]
      refine replace_congr fun p hp => ?_
      rcases h.leaf_cases hscoped hdeclared hp with hmem | hnot
      · refine filling_map_replace ?_ hmem σ
        rw [List.length_map, hlength, params_of_definition hform]
      · rw [hwf.filling_of_not_isParameter d _ hnot, hwf.filling_of_not_isParameter d _ hnot,
          replace_leaf, hσ p hnot]
    refine ⟨?_, ?_⟩
    · calc (direct.base? y).map direct.tree
        _ = (direct.base? d).map fun b => ((direct.tree b).replace (filling (direct.params d)
              ((direct.args x).map direct.tree))).replace σ := by
            rw [hlinksy.base]
            exact Option.map_congr fun b hb => hcompose b (.inl hb)
        _ = ((direct.base? x).map direct.tree).map (replace σ) := by
            rw [hlinksx.base, Option.map_map]
            rfl
        _ = (direct.base? x).map fun b => (direct.tree b).replace σ := by
            rw [Option.map_map]
            rfl
    · calc (direct.interfaces y).map direct.tree
        _ = (direct.interfaces d).map fun i => ((direct.tree i).replace (filling (direct.params d)
              ((direct.args x).map direct.tree))).replace σ := by
            rw [hlinksy.interfaces]
            exact List.map_congr_left fun i hi => hcompose i (.inr hi)
        _ = ((direct.interfaces x).map direct.tree).map (replace σ) := by
            rw [hlinksx.interfaces, List.map_map]
            rfl
        _ = (direct.interfaces x).map fun i => (direct.tree i).replace σ := by
            rw [List.map_map]
            rfl

end Completes

/-! ## 3. Whole chains and lists -/

open Classical in
/-- The type with its leaves replaced, if the catalogue has it. -/
noncomputable def replaced (c : Catalog) (σ : TypeId → TypeTree) (x : TypeId) : TypeId :=
  if h : ∃ y, c.tree y = (c.tree x).replace σ then h.choose else x

/-- The catalogue has the type with its leaves replaced. -/
def HasReplaced (c : Catalog) (σ : TypeId → TypeTree) (x : TypeId) : Prop :=
  c.tree (c.replaced σ x) = (c.tree x).replace σ

section

variable {c : Catalog} {σ : TypeId → TypeTree} {x y : TypeId}

theorem WellFormed.replaced_eq (hc : c.WellFormed) (h : c.tree y = (c.tree x).replace σ) :
    c.replaced σ x = y := by
  have hexists : ∃ y, c.tree y = (c.tree x).replace σ := ⟨y, h⟩
  rw [replaced, dif_pos hexists]
  exact hc.tree_injective (hexists.choose_spec.trans h.symm)

theorem WellFormed.hasReplaced (hc : c.WellFormed) (h : c.tree y = (c.tree x).replace σ) :
    c.HasReplaced σ x := by
  rw [HasReplaced, hc.replaced_eq h, h]

theorem LinksReplaced.base?_eq (h : c.LinksReplaced σ x y) (hc : c.WellFormed) :
    c.base? y = (c.base? x).map (c.replaced σ) := by
  have hbase := h.base
  cases hx : c.base? x with
  | none =>
    rw [hx] at hbase
    exact Option.map_eq_none_iff.mp hbase
  | some b =>
    rw [hx, Option.map_some] at hbase
    obtain ⟨b', hb', htree⟩ := Option.map_eq_some_iff.mp hbase
    rw [hb', Option.map_some, hc.replaced_eq htree]

theorem LinksReplaced.interfaces_eq (h : c.LinksReplaced σ x y) (hc : c.WellFormed) :
    c.interfaces y = (c.interfaces x).map (c.replaced σ) := by
  have hinterfaces := h.interfaces
  generalize c.interfaces y = ys at hinterfaces ⊢
  generalize c.interfaces x = xs at hinterfaces ⊢
  induction xs generalizing ys with
  | nil => exact List.map_eq_nil_iff.mp hinterfaces
  | cons i rest ih =>
    cases ys with
    | nil => cases hinterfaces
    | cons i' rest' =>
      rw [List.map_cons, List.map_cons, List.cons.injEq] at hinterfaces
      rw [List.map_cons, hc.replaced_eq hinterfaces.1, ih rest' hinterfaces.2]

/-- The catalogue has the links with their leaves replaced. -/
theorem LinksReplaced.hasReplaced (h : c.LinksReplaced σ x y) (hc : c.WellFormed) {link : TypeId}
    (hlink : c.Inherits x link) : c.HasReplaced σ link := by
  rcases hlink with hbase | hmem
  · have heq := h.base
    rw [hbase, Option.map_some] at heq
    obtain ⟨b, -, htree⟩ := Option.map_eq_some_iff.mp heq
    exact hc.hasReplaced htree
  · have hmem' : (c.tree link).replace σ ∈ (c.interfaces y).map c.tree := by
      rw [h.interfaces]
      exact List.mem_map_of_mem hmem
    obtain ⟨i, -, htree⟩ := List.mem_map.mp hmem'
    exact hc.hasReplaced htree

end

/-- Lists that are replaced up to repetitions, joined. -/
theorem eraseDups_flatMap_map {s : TypeId → TypeId} {L : TypeId → List TypeId} {links : List TypeId}
    (h : ∀ link ∈ links, L (s link) = ((L link).map s).eraseDups) :
    ((links.map s).flatMap L).eraseDups = ((links.flatMap L).map s).eraseDups := by
  calc ((links.map s).flatMap L).eraseDups
    _ = (links.flatMap fun link => ((L link).map s).eraseDups).eraseDups := by
        rw [List.flatMap_map, List.flatMap_def, List.map_congr_left h, ← List.flatMap_def]
    _ = ((links.flatMap L).map s).eraseDups := by
        rw [eraseDups_flatMap_eraseDups, List.map_flatMap]

namespace Completes

variable {c direct : Catalog} {x y : TypeId} {σ : TypeId → TypeTree}

/-- If leaves are replaced in a type, they are replaced all along its chain of
bases. -/
theorem basesWithin_replaced (h : Completes c direct) (hscoped : c.Scoped)
    (hσ : ∀ id, direct.isParameter id = false → σ id = leaf id) (steps : Nat)
    (hx : direct.isParameter x = false) (hy : direct.tree y = (direct.tree x).replace σ) :
    direct.basesWithin steps y = (direct.basesWithin steps x).map (direct.replaced σ) ∧
      ∀ b ∈ direct.basesWithin steps x, direct.HasReplaced σ b := by
  induction steps generalizing x y with
  | zero => exact ⟨rfl, fun b hb => by cases hb⟩
  | succ steps ih =>
    have hlinks := h.linksReplaced hscoped hσ hx hy
    rw [basesWithin, basesWithin, hlinks.base?_eq h.wellFormed]
    cases hbase : direct.base? x with
    | none => exact ⟨rfl, fun b hb => by cases hb⟩
    | some b =>
      have hinherits : direct.Inherits x b := .inl hbase
      have hb := hlinks.hasReplaced h.wellFormed hinherits
      obtain ⟨hchain, hall⟩ := ih (h.wellFormed.knows_of_inherits hinherits).2 hb
      refine ⟨?_, fun z hz => ?_⟩
      · rw [Option.map_some, List.map_cons, ← hchain]
      · rcases List.mem_cons.mp hz with rfl | hz
        · exact hb
        · exact hall z hz

/-- If leaves are replaced in a type, they are replaced in all interfaces that it
inherits, of which those stay that differ from all before. -/
theorem listedInterfaces_replaced (h : Completes c direct) (hscoped : c.Scoped)
    (hσ : ∀ id, direct.isParameter id = false → σ id = leaf id)
    (hx : direct.isParameter x = false) (hy : direct.tree y = (direct.tree x).replace σ) :
    direct.listedInterfaces y =
        ((direct.listedInterfaces x).map (direct.replaced σ)).eraseDups ∧
      ∀ i ∈ direct.listedInterfaces x, direct.HasReplaced σ i := by
  obtain ⟨rank, hdown⟩ := h.exists_rank
  induction hn : rank x using Nat.strongRecOn generalizing x y with
  | ind n ih =>
    have hlinks := h.linksReplaced hscoped hσ hx hy
    have hlinked : ∀ link, direct.Inherits x link →
        direct.HasReplaced σ link ∧ direct.listedInterfaces (direct.replaced σ link) =
            ((direct.listedInterfaces link).map (direct.replaced σ)).eraseDups ∧
          ∀ i ∈ direct.listedInterfaces link, direct.HasReplaced σ i := by
      intro link hlink
      have hlt : rank link < n := hn ▸ hdown x link hlink
      have htree := hlinks.hasReplaced h.wellFormed hlink
      exact ⟨htree, ih (rank link) hlt (h.wellFormed.knows_of_inherits hlink).2 htree rfl⟩
    have hmem : ∀ link ∈ direct.interfaces x ++ (direct.base? x).toList,
        direct.Inherits x link := by
      intro link hlink
      rcases List.mem_append.mp hlink with hmem | hmem
      · exact .inr hmem
      · exact .inl (Option.mem_toList.mp hmem)
    have hlists := eraseDups_flatMap_map fun link hlink => (hlinked link (hmem link hlink)).2.1
    have heq := h.listsInterfaces x
    rw [List.append_assoc, ← List.flatMap_append] at heq
    refine ⟨?_, fun i hi => ?_⟩
    · rw [heq, eraseDups_map_eraseDups, List.map_append, ← eraseDups_append_eraseDups, ← hlists,
        eraseDups_append_eraseDups, h.listsInterfaces y, hlinks.base?_eq h.wellFormed,
        hlinks.interfaces_eq h.wellFormed, List.append_assoc, ← List.flatMap_append,
        Option.toList_map, List.map_append]
    · rw [heq, List.mem_eraseDups, List.mem_append, List.mem_flatMap] at hi
      rcases hi with hown | ⟨link, hlink, hi⟩
      · exact (hlinked i (.inr hown)).1
      · exact (hlinked link (hmem link hlink)).2.2 i hi

end Completes

/-! ## 4. Applications and their definitions -/

@[simp] theorem basesWithin_withInheritedInterfaces (c : Catalog) (steps : Nat) (id : TypeId) :
    c.withInheritedInterfaces.basesWithin steps id = c.basesWithin steps id := by
  induction steps generalizing id with
  | zero => rfl
  | succ steps ih =>
    rw [basesWithin, basesWithin, base?_withInheritedInterfaces]
    cases c.base? id with
    | none => rfl
    | some b => simp only [ih]

@[simp] theorem selfAndBases_withInheritedInterfaces (c : Catalog) (id : TypeId) :
    c.withInheritedInterfaces.selfAndBases id = c.selfAndBases id := by
  have hsize : c.withInheritedInterfaces.size = c.size := by
    simp [size, withInheritedInterfaces]
  rw [selfAndBases, selfAndBases, bases, bases, hsize, basesWithin_withInheritedInterfaces]

/-- An application is its definition with the arguments for the parameters. -/
theorem WellFormed.tree_of_filling {c : Catalog} (hc : c.WellFormed) {id definition : TypeId}
    {args : List TypeId} (hform : c.form? id = some (.application definition args)) :
    c.tree id = (c.tree definition).replace
      (filling (c.params definition) (args.map c.tree)) := by
  obtain ⟨params, hparams, hlength⟩ := hc.form?_of_definition? (definition?_of_application hform)
  rw [args_of_application hform] at hlength
  rw [hc.tree_of_application hform, tree_of_definition hparams, params_of_definition hparams,
    replace_apply, List.map_map]
  congr 1
  have hnodup := hc.nodup_params definition
  rw [params_of_definition hparams] at hnodup
  exact (map_filling hnodup (by rw [List.length_map, hlength])).symm

/-- In a finished catalogue whose declared links mention no foreign type
parameters, an application inherits what its definition does, with `s` putting
arguments for parameters: its chain of bases is that of the definition, type by
type, and its interfaces are those of the definition, in their order, each at its
first place. -/
theorem inherited_of_application {c : Catalog} {h : Hierarchy} (hc : c.Reachable)
    (hfinish : c.finish = .ok h) (hscoped : c.Scoped) {id definition : TypeId}
    {args : List TypeId} (hform : h.catalog.form? id = some (.application definition args)) :
    ∃ s : TypeId → TypeId,
      (∀ x ∈ h.catalog.selfAndBases definition ++ h.catalog.interfaces definition,
        h.catalog.tree (s x) =
          h.catalog.substitutedTree ((h.catalog.params definition).zip args) x) ∧
      h.catalog.selfAndBases id = (h.catalog.selfAndBases definition).map s ∧
      h.catalog.interfaces id = ((h.catalog.interfaces definition).map s).eraseDups := by
  obtain ⟨direct, hcomplete, rfl⟩ := hc.wellFormed.completes_of_finish hfinish
  have hwf := hcomplete.wellFormed
  rw [form?_withInheritedInterfaces] at hform
  obtain ⟨params, hparams, -⟩ := hwf.form?_of_definition? (definition?_of_application hform)
  have hσ : ∀ x, direct.isParameter x = false →
      filling (direct.params definition) (args.map direct.tree) x = leaf x := fun x hx =>
    hwf.filling_of_not_isParameter definition _ hx
  have hdefinition := not_isParameter_of_isDefinition (isDefinition_iff.mpr ⟨params, hparams⟩)
  have htree := hwf.tree_of_filling hform
  obtain ⟨hchain, hbases⟩ :=
    hcomplete.basesWithin_replaced hscoped hσ direct.size hdefinition htree
  obtain ⟨hlist, hlisted⟩ := hcomplete.listedInterfaces_replaced hscoped hσ hdefinition htree
  refine ⟨direct.replaced (filling (direct.params definition) (args.map direct.tree)), ?_, ?_, ?_⟩
  · intro x hx
    have hreplaced : direct.HasReplaced (filling (direct.params definition)
        (args.map direct.tree)) x := by
      rw [selfAndBases_withInheritedInterfaces, List.mem_append,
        interfaces_withInheritedInterfaces (knows_of_form? hparams)] at hx
      rcases hx with hchain | hi
      · rcases List.mem_cons.mp hchain with rfl | hb
        · exact hwf.hasReplaced htree
        · exact hbases x hb
      · exact hlisted x hi
    have hsame : direct.withInheritedInterfaces.tree = direct.tree :=
      funext fun x => tree_withInheritedInterfaces direct x
    have hparams' :
        direct.withInheritedInterfaces.params definition = direct.params definition := by
      rw [params_of_definition hparams,
        params_of_definition (form?_withInheritedInterfaces direct definition ▸ hparams)]
    rw [substitutedTree, assigned_zip, hsame, hparams']
    exact hreplaced
  · simp only [selfAndBases_withInheritedInterfaces]
    rw [selfAndBases, selfAndBases, List.map_cons, hwf.replaced_eq htree, bases, bases, hchain]
  · simp only [interfaces_withInheritedInterfaces (knows_of_form? hform),
      interfaces_withInheritedInterfaces (knows_of_form? hparams), hlist]

/-- It is enough that links are applications to type parameters of the type itself. -/
theorem scoped_of_args {c : Catalog}
    (h : ∀ ⦃id link⦄, c.Inherits id link → c.isParameter link = false ∧
      ∀ a ∈ c.args link, a ∈ c.params id ∧ c.args a = []) : c.Scoped := by
  intro id link hlink path p hleads hp
  obtain ⟨hnot, hargs⟩ := h hlink
  cases hleads with
  | here =>
    rw [hnot] at hp
    cases hp
  | into ha hrest =>
    obtain ⟨hown, hnone⟩ := hargs _ (List.mem_of_getElem? ha)
    cases hrest with
    | here => exact hown
    | into hb _ =>
      rw [hnone] at hb
      cases hb

theorem scoped_boxes : boxes.Scoped := by
  refine scoped_of_args fun id link hlink => ?_
  obtain ⟨rfl, rfl⟩ := inherits_boxes hlink
  decide

theorem scoped_pairs : pairs.Scoped := by
  refine scoped_of_args fun id link hlink => ?_
  obtain ⟨rfl, rfl | rfl | rfl⟩ := inherits_pairs hlink <;> decide

/-- `Pair<string, string>` has the base `Box<string>` as `Pair<A, B>` has `Box<A>`. Of the two
interfaces `Key<A>` and `Key<B>`, which are different ones, it has one for both. -/
theorem inherited_of_application_pairs :
    (pairs.Reachable ∧ pairs.finish = .ok ⟨pairsFinished⟩ ∧ pairs.Scoped ∧
      pairsFinished.form? ⟨11⟩ = some (.application ⟨4⟩ [⟨10⟩, ⟨10⟩])) ∧
    ∃ s : TypeId → TypeId,
      (∀ x ∈ [(⟨4⟩ : TypeId), ⟨7⟩, ⟨8⟩, ⟨9⟩], pairsFinished.tree (s x) =
        pairsFinished.substitutedTree [(⟨5⟩, ⟨10⟩), (⟨6⟩, ⟨10⟩)] x) ∧
      [⟨11⟩, ⟨12⟩] = [⟨4⟩, ⟨7⟩].map s ∧
      [⟨13⟩] = ([⟨8⟩, ⟨9⟩].map s).eraseDups := by
  have hform : pairsFinished.form? ⟨11⟩ = some (.application ⟨4⟩ [⟨10⟩, ⟨10⟩]) := by
    rw [pairsFinished_eq]
    rfl
  obtain ⟨s, htrees, hchain, hlist⟩ :=
    inherited_of_application reachable_pairs finish_pairs scoped_pairs hform
  have hparams : pairsFinished.params ⟨4⟩ = [⟨5⟩, ⟨6⟩] := by rw [pairsFinished_eq]; rfl
  have hbases : pairsFinished.selfAndBases ⟨4⟩ = [⟨4⟩, ⟨7⟩] := by rw [pairsFinished_eq]; rfl
  have hbases' : pairsFinished.selfAndBases ⟨11⟩ = [⟨11⟩, ⟨12⟩] := by rw [pairsFinished_eq]; rfl
  have hkeys : pairsFinished.interfaces ⟨4⟩ = [⟨8⟩, ⟨9⟩] := by rw [pairsFinished_eq]; rfl
  have hkeys' : pairsFinished.interfaces ⟨11⟩ = [⟨13⟩] := by rw [pairsFinished_eq]; rfl
  simp only [hparams, hbases, hbases', hkeys, hkeys'] at htrees hchain hlist
  exact ⟨⟨reachable_pairs, finish_pairs, scoped_pairs, hform⟩, s, htrees, hchain, hlist⟩

end Generics.Catalog

/-
Generics.Proofs.Catalog.Following — a renaming of declared types goes for all.

The types of a catalogue that are not applications have been declared, and an
application is what its tree says. So it is enough to rename the former: `Follows`
says that `c'` has the declared types of `c` under other numbers, and for every
tree of `c` the tree over these numbers. The application with the renamed tree is
then where an application goes (`carried`), and if links correspond, `c` is
embedded in `c'` (`Follows.embeds`).
-/
import Generics.Proofs.Catalog.Embedding

namespace Generics.Catalog

open TypeTree

/-- The types of `c` that are not applications are found under their renamed
numbers, and all types under their renamed trees. Nothing is said about links. -/
structure Follows (φ : TypeId → TypeId) (c c' : Catalog) : Prop where
  source : c.WellFormed
  target : c'.WellFormed
  injective : Function.Injective φ
  declared : ∀ {x n}, c.node? x = some n → n.isApplication = false →
    ∃ n', c'.node? (φ x) = some n' ∧ n'.name = n.name ∧ n'.kind = n.kind ∧
      n'.form = n.form.rename φ
  trees : ∀ {x}, c.knows x = true → ∃ y, c'.tree y = (c.tree x).rename φ

/-- The links of `y` in `c'` have the renamed trees of the links of `x` in `c`. -/
structure LinksRenamed (φ : TypeId → TypeId) (c c' : Catalog) (x y : TypeId) : Prop where
  base : (c'.base? y).map c'.tree = (c.base? x).map fun b => (c.tree b).rename φ
  interfaces : (c'.interfaces y).map c'.tree = (c.interfaces x).map fun i => (c.tree i).rename φ

open Classical in
/-- Where a type goes: to the type with the renamed tree, if there is one. -/
noncomputable def carried (φ : TypeId → TypeId) (c c' : Catalog) (x : TypeId) : TypeId :=
  if h : ∃ y, c'.tree y = (c.tree x).rename φ then h.choose else x

/-- The tree of a type that is not an application. -/
theorem tree_of_form_rename {φ : TypeId → TypeId} {c c' : Catalog} {x : TypeId} {form : Form}
    (hform : c.form? x = some form) (hform' : c'.form? (φ x) = some (form.rename φ))
    (hnot : ∀ d args, form ≠ .application d args) : c'.tree (φ x) = (c.tree x).rename φ := by
  unfold form? at hform hform'
  cases form with
  | plain =>
    have hnone : c.definition? x = none := by rw [definition?, hform]
    have hnone' : c'.definition? (φ x) = none := by rw [definition?, hform']; rfl
    rw [tree_of_definition?_none hnone, tree_of_definition?_none hnone', rename_leaf]
  | parameter position =>
    have hnone : c.definition? x = none := by rw [definition?, hform]
    have hnone' : c'.definition? (φ x) = none := by rw [definition?, hform']; rfl
    rw [tree_of_definition?_none hnone, tree_of_definition?_none hnone', rename_leaf]
  | definition params =>
    rw [tree_of_definition hform, tree_of_definition hform', rename_apply, List.map_map,
      List.map_map]
    rfl
  | application d args => exact absurd rfl (hnot d args)

namespace Follows

variable {φ : TypeId → TypeId} {c c' : Catalog} {x y d : TypeId} {n : Node}
  {params args : List TypeId}

theorem tree_of_declared (h : Follows φ c c') (hnode : c.node? x = some n)
    (hnot : n.isApplication = false) : c'.tree (φ x) = (c.tree x).rename φ := by
  obtain ⟨n', hnode', -, -, hform⟩ := h.declared hnode hnot
  refine tree_of_form_rename (form?_of_node? hnode) ?_ ?_
  · rw [form?_of_node? hnode', hform]
  · rintro d args hform
    rw [isApplication_iff.mpr ⟨d, args, hform⟩] at hnot
    cases hnot

theorem form?_definition (h : Follows φ c c') (hform : c.form? d = some (.definition params)) :
    c'.form? (φ d) = some (.definition (params.map φ)) := by
  obtain ⟨n, hnode, hn⟩ := form?_eq_some.mp hform
  obtain ⟨n', hnode', -, -, hn'⟩ := h.declared hnode (by rw [Node.isApplication, hn])
  rw [form?_of_node? hnode', hn', hn]
  rfl

/-- An application goes to an application of the renamed definition. -/
theorem form?_application (h : Follows φ c c')
    (hform : c.form? x = some (.application d args)) (htree : c'.tree y = (c.tree x).rename φ) :
    ∃ args', c'.form? y = some (.application (φ d) args') ∧
      args'.map c'.tree = (args.map c.tree).map (rename φ) := by
  rw [h.source.tree_of_application hform, rename_apply] at htree
  obtain ⟨hdef, hargs⟩ := h.target.definition?_of_tree htree
  obtain ⟨_, -, happ⟩ := h.source.appliedTo hform
  obtain ⟨params, hparams⟩ := isDefinition_iff.mp happ.isDefinition
  rcases definition?_eq_some hdef with ⟨params', hform', rfl⟩ | ⟨args', hform'⟩
  · -- the tree of the definition itself is that of no application
    exfalso
    cases hform'.symm.trans (h.form?_definition hparams)
    rw [args_of_definition hform'] at hargs
    have hleaves : args.map c.tree = params.map leaf := by
      refine List.map_injective_iff.mpr (rename_injective h.injective) ?_
      rw [← hargs, List.map_map, List.map_map]
      exact List.map_congr_left fun p hp =>
        h.target.tree_of_mem_params hform' (List.mem_map_of_mem hp)
    refine happ.not_own ?_
    rw [params_of_definition hparams]
    exact eq_of_map_eq_map hleaves fun a _ p hap => h.source.eq_of_tree_eq_leaf hap
  · exact ⟨args', hform', by rw [← hargs, args_of_application hform']⟩

theorem carried_eq (h : Follows φ c c') (htree : c'.tree y = (c.tree x).rename φ) :
    carried φ c c' x = y := by
  have hexists : ∃ y, c'.tree y = (c.tree x).rename φ := ⟨y, htree⟩
  rw [carried, dif_pos hexists]
  exact h.target.tree_injective (hexists.choose_spec.trans htree.symm)

theorem tree_carried (h : Follows φ c c') (hx : c.knows x = true) :
    c'.tree (carried φ c c' x) = (c.tree x).rename φ := by
  obtain ⟨y, hy⟩ := h.trees hx
  rw [h.carried_eq hy, hy]

/-- A type that is not an application goes where it is renamed to. -/
theorem carried_of_declared (h : Follows φ c c') (hnode : c.node? x = some n)
    (hnot : n.isApplication = false) : carried φ c c' x = φ x :=
  h.carried_eq (h.tree_of_declared hnode hnot)

theorem carried_of_isParameter (h : Follows φ c c') (hx : c.isParameter x = true) :
    carried φ c c' x = φ x := by
  obtain ⟨position, hform⟩ := isParameter_iff.mp hx
  obtain ⟨n, hnode, hn⟩ := form?_eq_some.mp hform
  exact h.carried_of_declared hnode (by rw [Node.isApplication, hn])

/-- Lists of types with the renamed trees. -/
theorem eq_map_carried (h : Follows φ c c') {xs ys : List TypeId}
    (hxs : ∀ x ∈ xs, c.knows x = true)
    (htrees : ys.map c'.tree = (xs.map c.tree).map (rename φ)) :
    ys = xs.map (carried φ c c') := by
  refine List.map_injective_iff.mpr h.target.tree_injective ?_
  rw [htrees, List.map_map, List.map_map]
  exact List.map_congr_left fun x hx => (h.tree_carried (hxs x hx)).symm

/-- What stands behind a type stands behind the one it goes to. -/
theorem node?_carried (h : Follows φ c c') (hnode : c.node? x = some n) :
    ∃ n', c'.node? (carried φ c c' x) = some n' ∧ n'.name = n.name ∧ n'.kind = n.kind ∧
      n'.form = n.form.rename (carried φ c c') := by
  cases happ : n.isApplication with
  | false =>
    obtain ⟨n', hnode', hname, hkind, hform⟩ := h.declared hnode happ
    refine ⟨n', by rw [h.carried_of_declared hnode happ, hnode'], hname, hkind, ?_⟩
    rw [hform]
    cases hn : n.form with
    | plain => rfl
    | parameter position => rfl
    | definition params =>
      rw [Form.rename, Form.rename, List.map_congr_left fun p hp =>
        h.carried_of_isParameter (h.source.isParameter_of_mem_params
          (form?_eq_some.mpr ⟨n, hnode, hn⟩) hp)]
    | application d args =>
      rw [isApplication_iff.mpr ⟨d, args, hn⟩] at happ
      cases happ
  | true =>
    obtain ⟨d, args, hn⟩ := isApplication_iff.mp happ
    have hform := form?_eq_some.mpr ⟨n, hnode, hn⟩
    have htree := h.tree_carried (knows_of_node? hnode)
    obtain ⟨args', hform', hargs⟩ := h.form?_application hform htree
    obtain ⟨_, hnode₁, happ₁⟩ := h.source.appliedTo hform
    cases hnode.symm.trans hnode₁
    obtain ⟨n', hnode', happ'⟩ := h.target.appliedTo hform'
    obtain ⟨params, hparams⟩ := isDefinition_iff.mp happ₁.isDefinition
    obtain ⟨dn, hdn, hdnForm⟩ := form?_eq_some.mp hparams
    have hnot : dn.isApplication = false := by rw [Node.isApplication, hdnForm]
    obtain ⟨dn', hdn', hname, hkind, -⟩ := h.declared hdn hnot
    refine ⟨n', hnode', ?_, ?_, ?_⟩
    · rw [← happ'.name, ← happ₁.name, name, name, hdn, hdn', Option.map_some, Option.map_some,
        hname]
    · have hkind₁ := happ₁.kind
      have hkind' := happ'.kind
      rw [kind?, hdn] at hkind₁
      rw [kind?, hdn', Option.map_some, hkind] at hkind'
      exact (Option.some.inj (hkind₁.symm.trans hkind')).symm
    · have hknown : ∀ a ∈ args, c.knows a = true := fun a ha =>
        knows_of_lt (knows_of_node? hnode) (happ₁.args_older a ha)
      rw [form?_of_node? hnode'] at hform'
      rw [Option.some.inj hform', hn, Form.rename, h.eq_map_carried hknown hargs,
        h.carried_of_declared hdn hnot]

theorem depth_carried (h : Follows φ c c') (hx : c.knows x = true) :
    c'.depth (carried φ c c' x) = c.depth x := by
  induction x using h.source.args_induction with
  | step x ih =>
    obtain ⟨n, hnode⟩ := node?_of_knows hx
    obtain ⟨n', hnode', -, -, hform'⟩ := h.node?_carried hnode
    cases hn : n.form with
    | application d args =>
      have hform := form?_eq_some.mpr ⟨n, hnode, hn⟩
      rw [hn] at hform'
      obtain ⟨_, hnode₁, happ⟩ := h.source.appliedTo hform
      cases hnode.symm.trans hnode₁
      obtain ⟨_, hnode₁', happ'⟩ := h.target.appliedTo (form?_eq_some.mpr ⟨n', hnode', hform'⟩)
      cases hnode'.symm.trans hnode₁'
      have hargs : ∀ a ∈ args, c'.depth (carried φ c c' a) = c.depth a := fun a ha => by
        rw [← args_of_application hform] at ha
        exact ih a ha (h.source.knows_of_mem_args ha)
      rw [depth, depth, hnode, hnode', Option.map_some, Option.map_some, Option.getD_some,
        Option.getD_some, happ.depth, happ'.depth, applicationDepth, applicationDepth, List.map_map,
        Function.comp_def, List.map_congr_left hargs]
    | _ =>
      rw [h.source.depth_eq_zero, h.target.depth_eq_zero]
      · intro d args hform
        rw [form?_of_node? hnode', hform', hn] at hform
        cases hform
      · intro d args hform
        rw [form?_of_node? hnode, hn] at hform
        cases hform

/-- If links correspond, the catalogue is embedded. -/
theorem embeds (h : Follows φ c c')
    (hlinked : ∀ x, c.knows x = true → LinksRenamed φ c c' x (carried φ c c' x))
    (hlookup : ∀ name, c'.lookupName? name = (c.lookupName? name).map φ) :
    Embeds (renamingOn c.knows c'.size (carried φ c c')) c c' := by
  refine h.source.embeds h.target (fun a b ha hb hab => ?_) (fun {id node} hnode => ?_)
    fun name => ?_
  · refine h.source.tree_injective (rename_injective h.injective ?_)
    rw [← h.tree_carried ha, ← h.tree_carried hb, hab]
  · have hknown := knows_of_node? hnode
    have hlinks := h.source.links hnode
    obtain ⟨n', hnode', hname, hkind, hform⟩ := h.node?_carried hnode
    have hdepth := h.depth_carried hknown
    rw [depth, depth, hnode, hnode'] at hdepth
    have hbase' := (hlinked id hknown).base
    rw [base?, base?, hnode, hnode'] at hbase'
    have hinterfaces' := (hlinked id hknown).interfaces
    rw [interfaces, interfaces, hnode, hnode'] at hinterfaces'
    have hb : n'.base = node.base.map (carried φ c c') := by
      refine Option.map_injective h.target.tree_injective (hbase'.trans ?_)
      rw [Option.map_map]
      exact Option.map_congr fun b hb => (h.tree_carried (knows_of_kind? (hlinks.base hb).1)).symm
    have hi : n'.interfaces = node.interfaces.map (carried φ c c') := by
      refine h.eq_map_carried (fun i hi => knows_of_kind? (hlinks.interfaces hi)) ?_
      rw [List.map_map]
      exact hinterfaces'
    rw [hnode', Option.some.injEq]
    cases n'
    cases hname
    cases hkind
    cases hform
    cases hdepth
    cases hb
    cases hi
    rfl
  · rw [hlookup]
    refine Option.map_congr fun id hid => ?_
    obtain ⟨node, hnode, -, -, hnot⟩ := h.source.declared hid
    exact (h.carried_of_declared hnode hnot).symm

end Follows

end Generics.Catalog

/-
Generics.Proofs.Library.Display — displayed types can be read back.

The tree of a type can be written as an expression, with the names of its definitions
and leaves (`TypeTree.expr`). A closed type is displayed as that expression
(`display_eq_render`). In a library every type with a name of its own is found under
it, so the expression stands for the tree again, and the library finds the type: the
text of a closed type says which type it is.
-/
import Generics.Proofs.Hierarchy.Closed
import Generics.Proofs.Library.Lookup
import Generics.Proofs.TypeExpr.Reading

namespace Generics

open Catalog TypeTree

/-! ## 1. Trees as expressions -/

namespace TypeTree

mutual

/-- The expression that writes a tree. -/
def expr (name : TypeId → String) : TypeTree → TypeExpr
  | leaf id => .mk (name id) []
  | apply definition args => .mk (name definition) (exprs name args)

/-- The expressions that write several trees. -/
def exprs (name : TypeId → String) : List TypeTree → List TypeExpr
  | [] => []
  | t :: rest => expr name t :: exprs name rest

end

@[simp] theorem exprs_eq_map (name : TypeId → String) (trees : List TypeTree) :
    exprs name trees = trees.map (expr name) := by
  induction trees with
  | nil => rfl
  | cons t rest ih => rw [exprs, ih, List.map_cons]

end TypeTree

namespace Catalog

/-- Types that are neither applications nor type parameters have proper names, and are
found under them. -/
def ProperlyNamed (c : Catalog) : Prop :=
  ∀ ⦃id n⦄, c.node? id = some n → n.isApplication = false → n.isParameter = false →
    TypeExpr.IsName n.name ∧ c.lookupName? n.name = some id

/-- The expression that writes a type. -/
def exprOf (c : Catalog) (id : TypeId) : TypeExpr :=
  (c.tree id).expr c.name

section

variable {c : Catalog} {id d : TypeId} {args : List TypeId}

theorem exprOf_of_plain (h : c.form? id = some .plain) : c.exprOf id = .mk (c.name id) [] := by
  have hnone : c.definition? id = none := by
    unfold form? at h
    rw [definition?, h]
  rw [exprOf, tree_of_definition?_none hnone, expr]

theorem WellFormed.exprOf_of_application (hc : c.WellFormed)
    (h : c.form? id = some (.application d args)) :
    c.exprOf id = .mk (c.name d) (args.map c.exprOf) := by
  rw [exprOf, hc.tree_of_application h, expr, exprs_eq_map, List.map_map]
  rfl

theorem WellFormed.name_of_application (hc : c.WellFormed)
    (h : c.form? id = some (.application d args)) : c.name id = c.name d := by
  obtain ⟨node, hnode, happ⟩ := hc.appliedTo h
  rw [happ.name, name, hnode]
  rfl

theorem ProperlyNamed.of_plain (h : c.ProperlyNamed) (hform : c.form? id = some .plain) :
    TypeExpr.IsName (c.name id) ∧ c.lookupName? (c.name id) = some id := by
  obtain ⟨node, hnode, hplain⟩ := form?_eq_some.mp hform
  rw [name, hnode]
  exact h hnode (by rw [Node.isApplication, hplain]) (by rw [Node.isParameter, hplain])

theorem ProperlyNamed.of_application (h : c.ProperlyNamed) (hc : c.WellFormed)
    (hform : c.form? id = some (.application d args)) :
    TypeExpr.IsName (c.name d) ∧ c.lookupName? (c.name d) = some d := by
  obtain ⟨params, hparams, -⟩ := hc.form?_of_definition? (definition?_of_application hform)
  obtain ⟨node, hnode, hdefinition⟩ := form?_eq_some.mp hparams
  rw [name, hnode]
  exact h hnode (by rw [Node.isApplication, hdefinition]) (by rw [Node.isParameter, hdefinition])

namespace Ground

/-- A closed type is displayed as the expression that writes it. -/
theorem display_eq_render (h : c.Ground id) (hc : c.WellFormed) :
    c.display id = (c.exprOf id).render := by
  induction h with
  | @plain id hform =>
    obtain ⟨node, hnode, hplain⟩ := form?_eq_some.mp hform
    rw [exprOf_of_plain hform, display, hnode, name, hnode]
    simp [hplain, TypeExpr.render, Text.bracketed]
  | application hform _ ih =>
    rw [hc.display_of_application hform, hc.exprOf_of_application hform, TypeExpr.render,
      TypeExpr.renderAll_eq_map, hc.name_of_application hform, List.map_map,
      List.map_congr_left ih]
    rfl

theorem wellNamed_exprOf (h : c.Ground id) (hc : c.WellFormed) (hnamed : c.ProperlyNamed) :
    (c.exprOf id).WellNamed := by
  induction h with
  | plain hform =>
    rw [exprOf_of_plain hform, TypeExpr.wellNamed_mk]
    exact ⟨(hnamed.of_plain hform).1, by simp⟩
  | application hform _ ih =>
    rw [hc.exprOf_of_application hform, TypeExpr.wellNamed_mk]
    refine ⟨(hnamed.of_application hc hform).1, ?_⟩
    simpa using ih

/-- Brackets nest as deep as applications do. -/
theorem nesting_exprOf_le (h : c.Ground id) (hc : c.WellFormed) :
    (c.exprOf id).nesting ≤ c.depth id := by
  induction h with
  | plain hform =>
    rw [exprOf_of_plain hform, TypeExpr.nesting]
    exact Nat.zero_le _
  | @application id d args hform _ ih =>
    obtain ⟨node, hnode, happ⟩ := hc.appliedTo hform
    have hdepth : c.depth id = (args.map c.depth).foldl max 0 + 1 := by
      rw [depth, hnode]
      exact happ.depth
    have hne := hc.args_ne_nil (definition?_of_application hform)
    rw [args_of_application hform] at hne
    rw [hc.exprOf_of_application hform, TypeExpr.nesting_mk (by simpa using hne), hdepth]
    refine Nat.succ_le_succ (TypeExpr.nestingAll_le_iff.mpr fun e he => ?_)
    obtain ⟨a, ha, rfl⟩ := List.mem_map.mp he
    exact Nat.le_trans (ih a ha) (le_foldl_max (List.mem_map_of_mem ha))

/-- The expression stands for the tree that it writes. -/
theorem treeOf?_exprOf (h : c.Ground id) (hc : c.WellFormed) (hnamed : c.ProperlyNamed) :
    c.treeOf? [] (c.exprOf id) = some (c.tree id) := by
  induction h with
  | plain hform =>
    rw [exprOf_of_plain hform]
    simp [treeOf?, (hnamed.of_plain hform).2]
  | @application id d args hform _ ih =>
    obtain ⟨node, -, happ⟩ := hc.appliedTo hform
    have htrees : ∀ as ⊆ args, c.treesOf? [] (as.map c.exprOf) = some (as.map c.tree) := by
      intro as has
      induction as with
      | nil => rfl
      | cons a rest hrest =>
        obtain ⟨ha, hothers⟩ := List.cons_subset.mp has
        simp [treesOf?, ih a ha, hrest hothers]
    have hne := hc.args_ne_nil (definition?_of_application hform)
    rw [args_of_application hform] at hne
    have hargs : (args.map c.exprOf).isEmpty = false := by simpa using hne
    rw [hc.exprOf_of_application hform,
      treeOf?_application rfl (hnamed.of_application hc hform).2 hargs, htrees args (by simp)]
    simp [happ.arity, hc.tree_of_application hform]

end Ground

end

end Catalog

/-! ## 2. Reading back -/

/-- A library finds a closed type by its text. -/
theorem Hierarchy.resolveText_of_display {h : Hierarchy} (hc : h.catalog.WellFormed)
    (hnamed : h.catalog.ProperlyNamed) {id : TypeId} (hid : h.catalog.knows id = true)
    (hclosed : h.catalog.Closed id) : h.resolveText (h.catalog.display id) = .ok id := by
  have hground := hc.ground_of_closed hid hclosed
  -- the reader allows as many levels of brackets as a catalogue allows for applications
  have hdeep := Nat.le_trans (hground.nesting_exprOf_le hc) (hc.depth_le id)
  rw [resolveText_eq_ok_iff hc, hground.display_eq_render hc, treeOfText?,
    TypeExpr.read_render (hground.wellNamed_exprOf hc hnamed) hdeep]
  exact hground.treeOf?_exprOf hc hnamed

/-- The types of a finished catalogue that are not applications are those of the draft. -/
theorem Catalog.WellFormed.node?_of_finish {c : Catalog} {h : Hierarchy} (hc : c.WellFormed)
    (hfinish : c.finish = .ok h) {id : TypeId} {n : Node} (hnode : h.catalog.node? id = some n)
    (hnot : n.isApplication = false) : ∃ n', c.node? id = some n' ∧ n'.Alike n := by
  obtain ⟨direct, hcomplete, rfl⟩ := hc.completes_of_finish hfinish
  obtain ⟨n', hnode', halike⟩ := withInheritedInterfaces_preserves direct hnode
  have hnot' : n'.isApplication = false := by
    rw [Node.isApplication, halike.form]
    exact hnot
  exact ⟨n', hcomplete.node?_of_not_application hnode' hnot', halike⟩

/-- The names of a loaded schema are proper if its types have proper names. -/
theorem LibraryDraft.properlyNamed {s : Schema} {d : LibraryDraft}
    (hschema : LibraryDraft.ofSchema s = .ok d)
    (hnames : ∀ decl ∈ s.types, TypeExpr.IsName decl.name) {texts : List String} {l : Library}
    (hfinish : (d.resolveEach texts).finish = .ok l) : l.hierarchy.catalog.ProperlyNamed := by
  have hloaded := loaded hschema
  have hgrown := (grows_resolveEach hloaded.wellFormed texts).catalog
  have hdone := (finish_eq_ok_iff.mp hfinish).1
  intro id n hnode hnot hparam
  obtain ⟨n', hnode', halike⟩ := hgrown.wellFormed.node?_of_finish hdone hnode hnot
  have hnot' : n'.isApplication = false := by
    rw [Node.isApplication, halike.form]
    exact hnot
  have hparam' : n'.isParameter = false := by
    rw [Node.isParameter, halike.form]
    exact hparam
  have hold : d.catalog.node? id = some n' := by
    rcases hgrown.added hnode' with hold | ⟨happ, -⟩
    · exact hold
    · rw [hnot'] at happ
      cases happ
  obtain ⟨decl, hdecl, hdeclared⟩ := hloaded.declared hold hnot' hparam'
  have hname : n.name = decl.name := by
    rw [← halike.name, ← hdeclared.name_eq hloaded.wellFormed, Catalog.name, hold]
    rfl
  rw [hname, lookupName?, hgrown.wellFormed.declared_of_finish hdone, hgrown.declared,
    ← lookupName?]
  exact ⟨hnames decl hdecl, hdeclared.lookup⟩

/-- Display and resolving are inverse on closed types. Take a library of a schema whose
types have proper names, with any written types resolved before it was finished. Every
type without type parameters is found again by its text, also one that was entered in
finishing, and so no two of them have the same text. -/
theorem Library.resolveText_display {s : Schema} {d : LibraryDraft}
    (hschema : LibraryDraft.ofSchema s = .ok d)
    (hnames : ∀ decl ∈ s.types, TypeExpr.IsName decl.name) (texts : List String) {l : Library}
    (hfinish : (d.resolveEach texts).finish = .ok l) :
    (∀ id, l.hierarchy.catalog.knows id = true → l.hierarchy.catalog.Closed id →
      l.hierarchy.resolveText (l.hierarchy.catalog.display id) = .ok id) ∧
    ∀ id id', l.hierarchy.catalog.knows id = true → l.hierarchy.catalog.knows id' = true →
      l.hierarchy.catalog.Closed id → l.hierarchy.catalog.Closed id' → id ≠ id' →
      l.hierarchy.catalog.display id ≠ l.hierarchy.catalog.display id' := by
  have hloaded := LibraryDraft.loaded hschema
  have hgrown := (LibraryDraft.grows_resolveEach hloaded.wellFormed texts).catalog.wellFormed
  have hc := hgrown.of_finish (LibraryDraft.finish_eq_ok_iff.mp hfinish).1
  have hnamed := LibraryDraft.properlyNamed hschema hnames hfinish
  have hback : ∀ id, l.hierarchy.catalog.knows id = true → l.hierarchy.catalog.Closed id →
      l.hierarchy.resolveText (l.hierarchy.catalog.display id) = .ok id := fun id hid hclosed =>
    Hierarchy.resolveText_of_display hc hnamed hid hclosed
  refine ⟨hback, fun id id' hid hid' hclosed hclosed' hne htext => hne ?_⟩
  have hfound := hback id hid hclosed
  rw [htext, hback id' hid' hclosed'] at hfound
  exact (Except.ok.inj hfound).symm

/-- On the shelf, `Box<string>`, which is made in finishing, is found by its text, and
`Crate<string>` has another text. -/
theorem Library.resolveText_display_shelf :
    (LibraryDraft.ofSchema shelf = .ok shelfDraft ∧
      (∀ decl ∈ shelf.types, TypeExpr.IsName decl.name) ∧
      (shelfDraft.resolveEach []).finish = .ok shelfLibrary ∧
      shelfLibrary.hierarchy.catalog.Closed ⟨11⟩ ∧ shelfLibrary.hierarchy.catalog.Closed ⟨13⟩) ∧
    shelfLibrary.hierarchy.catalog.display ⟨13⟩ = "Box<string>" ∧
    shelfLibrary.hierarchy.resolveText (shelfLibrary.hierarchy.catalog.display ⟨13⟩) = .ok ⟨13⟩ ∧
    shelfLibrary.hierarchy.catalog.display ⟨11⟩ ≠ shelfLibrary.hierarchy.catalog.display ⟨13⟩ := by
  have hname : ∀ {name}, TypeExpr.read name = .ok (.mk name []) → TypeExpr.IsName name :=
    fun hread => (TypeExpr.wellNamed_mk.mp (TypeExpr.spells_of_read hread).1).1
  have hread : TypeExpr.read "Labeled" = .ok (.mk "Labeled" []) ∧
      TypeExpr.read "Box" = .ok (.mk "Box" []) ∧ TypeExpr.read "Crate" = .ok (.mk "Crate" []) ∧
      TypeExpr.read "string" = .ok (.mk "string" []) :=
    ⟨TypeExpr.read_eq_scan _, TypeExpr.read_eq_scan _, TypeExpr.read_eq_scan _,
      TypeExpr.read_eq_scan _⟩
  have hnames : ∀ decl ∈ shelf.types, TypeExpr.IsName decl.name := by
    intro decl hdecl
    simp only [shelf, List.mem_cons, List.not_mem_nil, or_false] at hdecl
    obtain ⟨hlabeled, hbox, hcrate, hstring⟩ := hread
    rcases hdecl with rfl | rfl | rfl | rfl
    · exact hname hlabeled
    · exact hname hbox
    · exact hname hcrate
    · exact hname hstring
  have hclosed : ∀ id, shelfLibrary.hierarchy.catalog.isParameter id = false →
      shelfLibrary.hierarchy.catalog.args id = [⟨6⟩] →
      shelfLibrary.hierarchy.catalog.Closed id := by
    intro id hnot hargs
    refine closed_of_args hnot fun a ha => ?_
    rw [hargs] at ha
    cases List.mem_singleton.mp ha
    exact closed_of_args rfl nofun
  have hcrate := hclosed ⟨11⟩ rfl rfl
  have hbox := hclosed ⟨13⟩ rfl rfl
  have hdisplay : shelfLibrary.hierarchy.catalog.display ⟨13⟩ = "Box<string>" := by
    have hform : shelfLibrary.hierarchy.catalog.form? ⟨13⟩ = some (.application ⟨2⟩ [⟨6⟩]) := rfl
    have hc : shelfLibrary.hierarchy.catalog.WellFormed :=
      (LibraryDraft.loaded ofSchema_shelf).wellFormed.of_finish
        (LibraryDraft.finish_eq_ok_iff.mp finish_shelf).1
    rw [hc.display_of_application hform, List.map_singleton, display]
    rfl
  obtain ⟨hback, hdiffer⟩ := resolveText_display ofSchema_shelf hnames [] finish_shelf
  exact ⟨⟨ofSchema_shelf, hnames, finish_shelf, hcrate, hbox⟩, hdisplay, hback ⟨13⟩ rfl hbox,
    hdiffer ⟨11⟩ ⟨13⟩ rfl rfl hcrate hbox (by decide)⟩

end Generics

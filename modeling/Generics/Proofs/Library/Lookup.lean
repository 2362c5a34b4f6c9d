/-
Generics.Proofs.Library.Lookup — finding written types in a finished library.

A finished library enters nothing: a written type is found exactly if the library has a
type with the tree of the expression (`resolveText_eq_ok_iff`). A draft that is still
open enters what is missing and promises the same tree. So the two agree: what the
draft has resolved is found under its number, and what is found the draft would have
resolved, since the finished library has room for all of it.
-/
import Generics.Proofs.Library.Reloading
import Generics.Proofs.Library.Resolving
import Generics.Proofs.TypeExpr.Grammar

namespace Generics

open Catalog TypeTree

/-! ## 1. In a finished hierarchy -/

theorem Catalog.length_of_treesOf? {c : Catalog} {scope : Scope} {es : List TypeExpr}
    {trees : List TypeTree} (h : c.treesOf? scope es = some trees) : trees.length = es.length := by
  induction es generalizing trees with
  | nil =>
    cases h
    rfl
  | cons e rest ih =>
    rw [treesOf?] at h
    split at h
    · cases h
    · obtain ⟨others, hothers, rfl⟩ := Option.map_eq_some_iff.mp h
      simp [ih hothers]

namespace Hierarchy

variable {h : Hierarchy} {source : String}

/-- Several expressions are resolved as each of them is. -/
theorem resolveAll_eq_ok_iff {es : List TypeExpr} {ids : List TypeId}
    (hes : ∀ e ∈ es, ∀ id, h.resolve source e = .ok id ↔
      h.catalog.treeOf? [] e = some (h.catalog.tree id)) :
    h.resolveAll source es = .ok ids ↔
      h.catalog.treesOf? [] es = some (ids.map h.catalog.tree) := by
  induction es generalizing ids with
  | nil => cases ids <;> simp [resolveAll, treesOf?]
  | cons e rest ih =>
    obtain ⟨he, hrest⟩ := List.forall_mem_cons.mp hes
    rw [resolveAll, treesOf?]
    constructor
    · intro hok
      cases hhead : h.resolve source e with
      | error refusal => simp [hhead] at hok
      | ok id =>
        cases hall : h.resolveAll source rest with
        | error refusal => simp [hhead, hall, Except.map] at hok
        | ok others =>
          simp only [hhead, hall, Except.map, Except.ok.injEq] at hok
          subst hok
          simp [(he id).mp hhead, (ih hrest).mp hall]
    · intro htrees
      cases hhead : h.catalog.treeOf? [] e with
      | none => simp [hhead] at htrees
      | some tree =>
        simp only [hhead] at htrees
        obtain ⟨others, hothers, heq⟩ := Option.map_eq_some_iff.mp htrees
        cases ids with
        | nil => cases heq
        | cons id ids =>
          rw [List.map_cons, List.cons.injEq] at heq
          obtain ⟨rfl, rfl⟩ := heq
          simp [(he id).mpr hhead, (ih hrest).mpr hothers, Except.map]

/-- An expression is found exactly if it stands for a tree that is there. -/
theorem resolve_eq_ok_iff (hc : h.catalog.WellFormed) {e : TypeExpr} {id : TypeId} :
    h.resolve source e = .ok id ↔ h.catalog.treeOf? [] e = some (h.catalog.tree id) := by
  induction e generalizing id with
  | mk name args ih =>
    cases hname : h.catalog.lookupName? name with
    | none => simp [resolve, treeOf?, hname]
    | some d =>
      cases hempty : args.isEmpty with
      | true => simp [resolve, treeOf?, hname, hempty, hc.tree_injective.eq_iff]
      | false =>
        have hall : ∀ ids, h.resolveAll source args = .ok ids ↔
            h.catalog.treesOf? [] args = some (ids.map h.catalog.tree) := fun ids =>
          resolveAll_eq_ok_iff fun e he id => ih e he
        have hlength : args.length ≠ 0 := by simpa using hempty
        rw [treeOf?_application rfl hname hempty, Option.bind_eq_some_iff]
        simp only [resolve, hname, hempty, Bool.false_eq_true, if_false]
        constructor
        · intro hok
          split at hok
          · cases hok
          split at hok
          · cases hok
          rename_i harity
          split at hok
          · cases hok
          rename_i ids hids
          split at hok
          · rename_i happlication
            cases hok
            have htrees := (hall ids).mp hids
            have hcount := length_of_treesOf? htrees
            refine ⟨_, htrees, ?_⟩
            rw [if_pos (by omega), hc.application?_eq_some_iff.mp happlication]
          · cases hok
        · rintro ⟨trees, htrees, hif⟩
          have hcount := length_of_treesOf? htrees
          split at hif
          · rename_i harity
            have htree := (Option.some.inj hif).symm
            obtain ⟨-, rfl⟩ := hc.definition?_of_tree htree
            rw [if_neg (by omega), if_neg (by omega), (hall _).mpr htrees]
            simp [hc.application?_eq_some_iff.mpr htree]
          · cases hif

theorem resolveText_eq_ok_iff (hc : h.catalog.WellFormed) {text : String} {id : TypeId} :
    h.resolveText text = .ok id ↔ h.catalog.treeOfText? [] text = some (h.catalog.tree id) := by
  rw [resolveText, treeOfText?]
  cases TypeExpr.read text with
  | error e => simp
  | ok e => exact resolve_eq_ok_iff hc

end Hierarchy

/-! ## 2. In a draft on the way to it -/

section

variable {c c' : Catalog}

theorem Catalog.WellFormed.declared_of_finish (hc : c.WellFormed) {h : Hierarchy}
    (hfinish : c.finish = .ok h) : h.catalog.declared = c.declared := by
  obtain ⟨direct, hcomplete, rfl⟩ := hc.completes_of_finish hfinish
  exact hcomplete.declared

/-- A catalogue is on the way to one that has its types, each under its own number. -/
theorem Catalog.WellFormed.tracks_of_preserves (hc : c.WellFormed) (hc' : c'.WellFormed)
    (hp : c.Preserves c') : Tracks (renamingOn c.isDeclared c'.size fun x => x) c c' where
  source := hc
  target := hc'
  injective := by
    refine renamingOn_injective (fun x hx => ?_) fun a b _ _ hab => hab
    obtain ⟨n, hnode, -⟩ := isDeclared_iff.mp hx
    exact knows_iff.mp (hp.knows (knows_of_node? hnode))
  declared := by
    intro x n hnode hnot
    obtain ⟨n', hnode', halike⟩ := hp hnode
    rw [renamingOn_of_pos (isDeclared_iff.mpr ⟨n, hnode, hnot⟩),
      hc.form_rename_congr (fun x hx => renamingOn_of_pos hx _ _) hnode hnot]
    exact ⟨n', hnode', halike.name, halike.kind,
      halike.form.trans (congrArg Node.form n.rename_self).symm⟩
  trees := by
    intro x hx
    refine ⟨x, ?_⟩
    rw [hp.tree hx, hc.tree_rename_congr (fun x hx => renamingOn_of_pos hx _ _) hx, rename_self]
  outside hx := knows_renamingOn_of_neg hx

/-- A written type that a later catalogue has is resolved in an earlier one. -/
theorem Catalog.WellFormed.run_resolveText_of_tree (hc : c.WellFormed) (hc' : c'.WellFormed)
    (hp : c.Preserves c') (hdeclared : c'.declared = c.declared) {text : String} {y : TypeId}
    (hy : c'.treeOfText? [] text = some (c'.tree y)) :
    ∃ x c₁, (Load.resolveText [] text).run.run c = (.ok x, c₁) ∧ c₁.tree x = c'.tree y := by
  -- limits cannot get in the way: along `Tracks` the later catalogue has room for the tree
  have htracks := hc.tracks_of_preserves hc' hp
  have hnames : NamesRenamed (renamingOn c.isDeclared c'.size fun x => x) c c' := by
    intro name
    rw [lookupName?, hdeclared, ← lookupName?]
    cases hname : c.lookupName? name with
    | none => rfl
    | some id =>
      obtain ⟨n, hnode, -, -, hnot⟩ := hc.declared hname
      rw [Option.map_some, renamingOn_of_pos (isDeclared_iff.mpr ⟨n, hnode, hnot⟩)]
  obtain ⟨x, c₁, hrun, hcontinues, hx, htree⟩ :=
    htracks.resolveText hnames Scope.fits_nil hy
  refine ⟨x, c₁, hrun, ?_⟩
  rw [htree, hcontinues.tracks.source.tree_rename_congr
    (fun z hz => renamingOn_of_pos (hcontinues.isDeclared hz) _ _) hx, rename_self]

end

/-! ## 3. Drafts and finished libraries -/

namespace LibraryDraft

variable {d : LibraryDraft} {l : Library} {text : String} {id : TypeId}

theorem resolveEach_append (d : LibraryDraft) (texts texts' : List String) :
    d.resolveEach (texts ++ texts') = (d.resolveEach texts).resolveEach texts' :=
  List.foldl_append

/-- What a draft has resolved, its library finds under the same number. -/
theorem resolveText_of_resolve (hc : d.catalog.WellFormed) (h : (d.resolve text).1 = .ok id)
    {after : List String} (hfinish : ((d.resolve text).2.resolveEach after).finish = .ok l) :
    l.hierarchy.resolveText text = .ok id := by
  obtain ⟨hknown, htree⟩ := (outcome_resolve hc text).ok h
  have hstep := (grows_resolve hc text).catalog
  have hafter := (grows_resolveEach hstep.wellFormed after).catalog
  have hdone := (finish_eq_ok_iff.mp hfinish).1
  have hp := hafter.preserves.trans (hafter.wellFormed.preserves_of_finish hdone)
  have hdeclared := (hafter.wellFormed.declared_of_finish hdone).trans
    (hafter.declared.trans hstep.declared)
  rw [Hierarchy.resolveText_eq_ok_iff (hafter.wellFormed.of_finish hdone), hp.tree hknown,
    treeOfText?_congr hc (hstep.preserves.trans hp) hdeclared, htree]

/-- What a library finds, its draft resolves, as the same type. -/
theorem resolve_of_resolveText (hc : d.catalog.WellFormed) (hfinish : d.finish = .ok l)
    (h : l.hierarchy.resolveText text = .ok id) :
    ∃ id', (d.resolve text).1 = .ok id' ∧
      (d.resolve text).2.catalog.tree id' = l.hierarchy.catalog.tree id := by
  have hdone := (finish_eq_ok_iff.mp hfinish).1
  have hc' := hc.of_finish hdone
  obtain ⟨id', c₁, hrun, htree⟩ := hc.run_resolveText_of_tree hc' (hc.preserves_of_finish hdone)
    (hc.declared_of_finish hdone) ((Hierarchy.resolveText_eq_ok_iff hc').mp h)
  refine ⟨id', ?_⟩
  rw [resolve, hrun]
  exact ⟨rfl, htree⟩

/-- If all applications of a resolved type are there, the library has that type. -/
theorem exists_tree_of_appliedParts (hc : d.catalog.WellFormed) (hfinish : d.finish = .ok l)
    (h : (d.resolve text).1 = .ok id)
    (hparts : ∀ u, (d.resolve text).2.catalog.AppliedPart ((d.resolve text).2.catalog.tree id) u →
      ∃ x, l.hierarchy.catalog.tree x = u) :
    ∃ x, l.hierarchy.catalog.tree x = (d.resolve text).2.catalog.tree id := by
  obtain ⟨hknown, -⟩ := (outcome_resolve hc text).ok h
  have hstep := (grows_resolve hc text).catalog
  obtain ⟨n, hnode⟩ := node?_of_knows hknown
  -- only applications are entered on the way, and a new one is a part of its own tree
  rcases hstep.added hnode with hold | ⟨happ, -⟩
  · have hp := hc.preserves_of_finish (finish_eq_ok_iff.mp hfinish).1
    refine ⟨id, ?_⟩
    rw [hp.tree (knows_of_node? hold), hstep.preserves.tree (knows_of_node? hold)]
  · obtain ⟨definition, args, hform⟩ := isApplication_iff.mp happ
    refine hparts _ ⟨.refl _, hstep.wellFormed.isApplied_tree_iff.mpr ⟨definition, args, ?_⟩⟩
    exact form?_eq_some.mpr ⟨n, hnode, hform⟩

/-- The two ways of resolving agree. Take a draft of a schema in which written types are
resolved one after the other, each with success or not, and finish it. What a draft on
the way has resolved, the library finds under the same number. What the library finds,
the last draft would have resolved as the same type, and under the same number if it
has that already. So the library finds exactly the texts that the last draft resolves
and whose applications are all there. -/
theorem resolve_agrees {s : Schema} (hschema : ofSchema s = .ok d) (texts : List String)
    (hfinish : (d.resolveEach texts).finish = .ok l) (text : String) :
    (∀ before after id, texts = before ++ text :: after →
      ((d.resolveEach before).resolve text).1 = .ok id →
      l.hierarchy.resolveText text = .ok id) ∧
    (∀ id, l.hierarchy.resolveText text = .ok id →
      ∃ id', ((d.resolveEach texts).resolve text).1 = .ok id' ∧
        ((d.resolveEach texts).resolve text).2.catalog.tree id' = l.hierarchy.catalog.tree id ∧
        ((d.resolveEach texts).catalog.knows id = true → id' = id)) ∧
    ((∃ id, l.hierarchy.resolveText text = .ok id) ↔
      ∃ id', ((d.resolveEach texts).resolve text).1 = .ok id' ∧
        ∀ u, ((d.resolveEach texts).resolve text).2.catalog.AppliedPart
          (((d.resolveEach texts).resolve text).2.catalog.tree id') u →
          ∃ x, l.hierarchy.catalog.tree x = u) := by
  have hc := (loaded hschema).wellFormed
  have hgrown := (grows_resolveEach hc texts).catalog.wellFormed
  have hdone := (finish_eq_ok_iff.mp hfinish).1
  have hc' := hgrown.of_finish hdone
  have hp := hgrown.preserves_of_finish hdone
  have hstep := (grows_resolve hgrown text).catalog
  refine ⟨?_, ?_, ?_, ?_⟩
  · rintro before after id rfl hok
    have hbefore := (grows_resolveEach hc before).catalog.wellFormed
    rw [resolveEach_append] at hfinish
    exact resolveText_of_resolve hbefore hok hfinish
  · intro id hok
    obtain ⟨id', hok', htree⟩ := resolve_of_resolveText hgrown hfinish hok
    refine ⟨id', hok', htree, fun hknown => hstep.wellFormed.tree_injective ?_⟩
    rw [htree, hp.tree hknown, hstep.preserves.tree hknown]
  · rintro ⟨id, hok⟩
    obtain ⟨id', hok', htree⟩ := resolve_of_resolveText hgrown hfinish hok
    refine ⟨id', hok', fun u hu => hc'.exists_tree_of_part hu.1 ⟨id, htree.symm⟩⟩
  · rintro ⟨id', hok, hparts⟩
    obtain ⟨x, hx⟩ := exists_tree_of_appliedParts hgrown hfinish hok hparts
    refine ⟨x, (Hierarchy.resolveText_eq_ok_iff hc').mpr ?_⟩
    rw [hx, treeOfText?_congr hgrown hp (hgrown.declared_of_finish hdone),
      ((outcome_resolve hgrown text).ok hok).2]

/-- `Crate<string>` is there from the start. `Box<string>` is made in finishing, and the draft
would give it another number. `Labeled<string>` is found under the number that the draft has
given it. -/
theorem resolve_agrees_shelf :
    (ofSchema shelf = .ok shelfDraft ∧ (shelfDraft.resolveEach []).finish = .ok shelfLibrary ∧
      (shelfDraft.resolveEach ["Labeled<string>"]).finish = .ok shelfGrownLibrary) ∧
    (shelfDraft.resolve "Crate<string>").1 = .ok ⟨11⟩ ∧
    (shelfLibrary.hierarchy.resolveText "Box<string>" = .ok ⟨13⟩ ∧
      shelfDraft.catalog.knows ⟨13⟩ = false ∧
      ∃ id', (shelfDraft.resolve "Box<string>").1 = .ok id' ∧
        (shelfDraft.resolve "Box<string>").2.catalog.tree id' =
          shelfLibrary.hierarchy.catalog.tree ⟨13⟩) ∧
    (shelfDraft.resolve "Labeled<string>").1 = .ok ⟨12⟩ ∧
    shelfGrownLibrary.hierarchy.resolveText "Labeled<string>" = .ok ⟨12⟩ := by
  obtain ⟨hlabeled, hbox, -, hstring⟩ := lookupName?_shelf
  obtain ⟨-, -, -, -, hread⟩ := read_shelf
  have hreadBox : TypeExpr.read "Box<string>" = .ok (.mk "Box" [.mk "string" []]) :=
    TypeExpr.read_eq_scan _
  have hresolve : shelfDraft.resolve "Labeled<string>" =
      (.ok ⟨12⟩, { shelfDraft with catalog := shelfGrown }) := by
    rw [resolve, Load.run_resolveText_application hread rfl hlabeled
      (Load.run_resolve_name rfl hstring) instantiate_shelf]
  have hfinish : (shelfDraft.resolveEach ["Labeled<string>"]).finish = .ok shelfGrownLibrary := by
    rw [resolveEach, List.foldl_cons, hresolve]
    exact finish_shelfGrown
  have hmade : shelfLibrary.hierarchy.resolveText "Box<string>" = .ok ⟨13⟩ :=
    Hierarchy.resolveText_application hreadBox hbox hstring rfl (by decide)
      (by simp [applications_shelf, Std.HashMap.getElem_insert])
  obtain ⟨-, hback, -⟩ := resolve_agrees ofSchema_shelf [] finish_shelf "Crate<string>"
  obtain ⟨-, hmade', -⟩ := resolve_agrees ofSchema_shelf [] finish_shelf "Box<string>"
  obtain ⟨hfound, -⟩ :=
    resolve_agrees ofSchema_shelf ["Labeled<string>"] hfinish "Labeled<string>"
  obtain ⟨id, hid, -, hsame⟩ := hback ⟨11⟩ resolveText_shelf
  obtain ⟨id', hid', htree, -⟩ := hmade' ⟨13⟩ hmade
  rw [hsame rfl] at hid
  have hnumber := congrArg Prod.fst hresolve
  exact ⟨⟨ofSchema_shelf, finish_shelf, hfinish⟩, hid, ⟨hmade, rfl, id', hid', htree⟩, hnumber,
    hfound [] [] ⟨12⟩ rfl hnumber⟩

end LibraryDraft

end Generics

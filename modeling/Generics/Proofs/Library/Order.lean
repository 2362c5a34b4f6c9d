/-
Generics.Proofs.Library.Order — the order of declarations does not matter.

What a schema has come to (`Loaded`) does not depend on the order of its types, and
depends on that of its methods only as the order of a list. So it is what a permuted
schema comes to as well, and loading that one succeeds too. The catalogues that the
two come to differ in the numbers of types, but names, links and methods correspond
(`Loaded.embeds`), each way round, so the finished libraries answer alike.
-/
import Mathlib.Data.List.Perm.Basic
import Generics.Proofs.Library.Answers
import Generics.Proofs.Library.Reloading
import Generics.Proofs.Library.Resolving

namespace Generics

open Catalog TypeTree

namespace Catalog

/-! ## 1. Links and methods correspond -/

section

variable {φ : TypeId → TypeId} {c c' : Catalog} {scope : Scope} {x y : TypeId}

/-- Links that are written alike correspond. -/
theorem Tracks.linksRenamed_of_linked (h : Tracks φ c c') (hnames : NamesRenamed φ c c')
    {decl : TypeDecl} (hx : c.TypeLinked decl x) (hy : c'.TypeLinked decl (φ x)) :
    LinksRenamed φ c c' x (φ x) := by
  obtain ⟨hbase, ids, hids⟩ := hx
  obtain ⟨hbase', ids', hids'⟩ := hy
  rw [h.params, ← Scope.ofParams_rename] at hbase' hids'
  have hrename : c'.treeOfText? ((Scope.ofParams decl.params (c.params x)).rename φ) =
      Option.map (rename φ) ∘ c.treeOfText? (Scope.ofParams decl.params (c.params x)) :=
    funext (h.treeOfText?_rename hnames)
  constructor
  · refine Option.map_injective (Option.some_injective _) ?_
    have hsame := hbase'.tree
    rw [hrename, ← Option.map_map, hbase.tree, Option.map_map] at hsame
    rw [Option.map_map, Option.map_map]
    exact hsame.symm
  · have hsame := hids'.trees
    rw [hrename, ← List.map_map, hids.trees, List.map_map] at hsame
    have htrees : ids'.map c'.tree = ids.map (rename φ ∘ c.tree) := by
      refine List.map_injective_iff.mpr (Option.some_injective _) ?_
      rw [List.map_map, List.map_map]
      exact hsame.symm
    classical
    rw [hids.interfaces, hids'.interfaces, ← eraseDups_map h.target.tree_injective, htrees,
      eraseDups_map ((rename_injective h.injective).comp h.source.tree_injective)]
    rfl

/-- Methods that are declared alike correspond. -/
theorem Tracks.eq_rename_of_declared (h : Tracks φ c c') (hnames : NamesRenamed φ c c')
    {decl : MethodDecl} {m m' : Method} (hm : c.MethodDeclared decl m)
    (hm' : c'.MethodDeclared decl m') (htypeParams : m.typeParams.map φ = m'.typeParams) :
    m' = m.rename (carried φ c c') := by
  have hcarried : m.typeParams.map (carried φ c c') = m'.typeParams := by
    rw [← htypeParams]
    exact List.map_congr_left fun p hp => h.carried_of_isParameter (hm.typeParams.isParameter hp)
  have hparams : m'.params = m.params.map (carried φ c c') := by
    refine h.eq_map_carried (fun x hx => hm.knows hx) ?_
    have hsame := hm'.params
    rw [← htypeParams, ← Scope.ofParams_rename, funext (h.treeOfText?_rename hnames)] at hsame
    have hold := congrArg (List.map (Option.map (rename φ))) hm.params
    rw [List.map_map] at hold
    refine List.map_injective_iff.mpr (Option.some_injective _) ?_
    rw [List.map_map, List.map_map, List.map_map]
    refine hsame.symm.trans (hold.trans ?_)
    rw [List.map_map]
    rfl
  rw [Method.rename, hcarried, ← hparams, hm.name, ← hm'.name]

theorem Tracks.methods_eq_map (h : Tracks φ c c') (hnames : NamesRenamed φ c c')
    {decls : List MethodDecl} {ms ms' : List Method} (hms : List.Forall₂ c.MethodDeclared decls ms)
    (hms' : List.Forall₂ c'.MethodDeclared decls ms')
    (htypeParams : List.Forall₂ (fun m m' => m.typeParams.map φ = m'.typeParams) ms ms') :
    ms' = ms.map (Method.rename (carried φ c c')) := by
  induction hms generalizing ms' with
  | nil =>
    cases hms'
    rfl
  | cons hm _ ih =>
    cases hms' with
    | cons hm' hms' =>
      cases htypeParams with
      | cons heq htypeParams =>
        rw [List.map_cons, ← ih hms' htypeParams, ← h.eq_rename_of_declared hnames hm hm' heq]

end

end Catalog

namespace Loaded

variable {s : Schema} {φ : TypeId → TypeId} {c c' : Catalog} {ms ms' : List Method}

/-- In two catalogues that a schema has come to, links correspond. -/
theorem linksRenamed (h : Loaded s c ms) (h' : Loaded s c' ms') (ht : Tracks φ c c')
    (hnames : NamesRenamed φ c c') {x : TypeId} (hx : c.knows x = true) :
    LinksRenamed φ c c' x (carried φ c c' x) := by
  obtain ⟨n, hnode⟩ := node?_of_knows hx
  obtain ⟨n', hnode', -, -, -⟩ := ht.node?_carried hnode
  have hshape := ht.sameShape hnode hnode' (ht.tree_carried hx)
  have hlinkless : n.base = none ∧ n.interfaces = [] → n'.base = none ∧ n'.interfaces = [] →
      LinksRenamed φ c c' x (carried φ c c' x) := by
    rintro ⟨hb, hi⟩ ⟨hb', hi'⟩
    constructor
    · simp [base?, hnode, hnode', hb, hb']
    · simp [interfaces, hnode, hnode', hi, hi']
  cases happ : n.isApplication with
  | true =>
    exact hlinkless (h.linkless hnode happ) (h'.linkless hnode' (hshape.isApplication ▸ happ))
  | false =>
    cases hparam : n.isParameter with
    | true =>
      exact hlinkless ((h.wellFormed.links hnode).ofParameter hparam)
        ((h'.wellFormed.links hnode').ofParameter (hshape.isParameter ▸ hparam))
    | false =>
      obtain ⟨decl, hdecl, hdeclared⟩ := h.declared hnode happ hparam
      obtain ⟨y, hy, hlinked⟩ := h.types hdecl
      cases hy.lookup.symm.trans hdeclared.lookup
      obtain ⟨z, hz, hlinked'⟩ := h'.types hdecl
      have hlookup := hnames decl.name
      rw [hz.lookup, hdeclared.lookup] at hlookup
      cases hlookup
      rw [ht.carried_of_declared hnode happ]
      exact ht.linksRenamed_of_linked hnames hlinked hlinked'

/-- What a permuted schema has come to. -/
theorem perm (h : Loaded s c ms) {types : List TypeDecl} {methods : List MethodDecl}
    (htypes : types.Perm s.types) (hmethods : methods.Perm s.methods) :
    ∃ ms', ms'.Perm ms ∧ Loaded { s with types, methods } c ms' := by
  obtain ⟨ms', hms', hperm⟩ := List.perm_comp_forall₂ hmethods h.methods
  refine ⟨ms', hperm, h.wellFormed, (htypes.map _).nodup_iff.mpr h.typeNames,
    fun hdecl => h.types (htypes.subset hdecl), fun hnode happ hparam => ?_, h.linkless,
    (hmethods.map _).nodup_iff.mpr h.methodNames, hms', fun m hm => h.fresh m (hperm.subset hm), ?_⟩
  · obtain ⟨decl, hdecl, hdeclared⟩ := h.declared hnode happ hparam
    exact ⟨decl, htypes.symm.subset hdecl, hdeclared⟩
  · exact (hperm.pairwise_iff fun hdisjoint => hdisjoint.symm).mpr h.apart

theorem names_nodup (h : Loaded s c ms) : (ms.map Method.name).Nodup := by
  have heq : List.Forall₂ (· = ·) (ms.map Method.name) (s.methods.map MethodDecl.name) := by
    rw [List.forall₂_map_left_iff, List.forall₂_map_right_iff]
    exact h.methods.flip.imp fun _ _ hdeclared => hdeclared.name
  rw [List.forall₂_eq_eq_eq] at heq
  rw [heq]
  exact h.methodNames

end Loaded

/-- Methods of different names are found in whatever order. -/
theorem find?_name_of_perm {ms ms' : List Method} (hperm : ms'.Perm ms)
    (hnodup : (ms.map Method.name).Nodup) (name : String) :
    (ms'.find? fun m => m.name == name) = ms.find? fun m => m.name == name := by
  have hiff : ∀ {l : List Method}, (l.map Method.name).Nodup → ∀ m,
      (l.find? fun m => m.name == name) = some m ↔ m ∈ l ∧ m.name = name := by
    intro l hl m
    constructor
    · intro hfind
      exact ⟨List.mem_of_find?_eq_some hfind, by simpa using List.find?_some hfind⟩
    · rintro ⟨hm, rfl⟩
      obtain ⟨other, hother⟩ : ∃ other, (l.find? fun o => o.name == m.name) = some other :=
        Option.isSome_iff_exists.mp (List.find?_isSome.mpr ⟨m, hm, BEq.rfl⟩)
      have hname : other.name = m.name := by simpa using List.find?_some hother
      rw [hother, List.inj_on_of_nodup_map hl (List.mem_of_find?_eq_some hother) hm hname]
  refine Option.ext fun m => ?_
  rw [hiff ((hperm.map _).nodup_iff.mpr hnodup), hiff hnodup, hperm.mem_iff]

namespace LibraryDraft

/-! ## 2. Permuted schemas -/

/-- A permuted schema is loaded too, and what it comes to is embedded in what the
schema has come to. -/
theorem embeds_of_permuted {s : Schema} {d : LibraryDraft} (hd : ofSchema s = .ok d)
    {types : List TypeDecl} {methods : List MethodDecl} (htypes : types.Perm s.types)
    (hmethods : methods.Perm s.methods) :
    ∃ d', ofSchema { s with types, methods } = .ok d' ∧ ∃ φ, Embeds φ d' d := by
  have hloaded := loaded hd
  obtain ⟨ms, hperm, h⟩ := hloaded.perm htypes hmethods
  obtain ⟨ms', c', φ, hrun, ht, hnames, htypeParams⟩ := h.reload
  have h' := Loaded.of_run hrun
  have hembeds := ht.embeds (fun x hx => h'.linksRenamed h ht hnames hx) hnames
  have hms := ht.methods_eq_map hnames h'.methods h.methods htypeParams
  refine ⟨⟨c', ms', s.options⟩, ofSchema_eq_ok_iff.mpr ⟨hrun, rfl⟩, _, hembeds,
    (ofSchema_eq_ok_iff.mp hd).2, fun name => ?_, fun hm =>
    h'.knows_of_mem (List.mem_of_find?_eq_some hm)⟩
  rw [method?, method?, ← find?_name_of_perm hperm hloaded.names_nodup, hms, List.find?_map]
  refine Option.map_congr fun m hm => Method.rename_congr fun x hx => ?_
  exact (renamingOn_of_pos (h'.knows_of_mem (List.mem_of_find?_eq_some hm) x hx) _ _).symm

/-- Drafts of permuted schemas are embedded in each other. -/
theorem embeds_both {s : Schema} {d d' : LibraryDraft} {types : List TypeDecl}
    {methods : List MethodDecl} (htypes : types.Perm s.types) (hmethods : methods.Perm s.methods)
    (hd : ofSchema s = .ok d) (hd' : ofSchema { s with types, methods } = .ok d') :
    (∃ φ, Embeds φ d' d) ∧ ∃ φ, Embeds φ d d' := by
  obtain ⟨_, hloaded, hembeds⟩ := embeds_of_permuted hd htypes hmethods
  obtain ⟨_, hloaded', hembeds'⟩ := embeds_of_permuted hd' htypes.symm hmethods.symm
  cases hloaded.symm.trans hd'
  cases hloaded'.symm.trans hd
  exact ⟨hembeds, hembeds'⟩

end LibraryDraft

open LibraryDraft

/-- The order of declarations does not matter. A schema and one with its types and
its methods permuted are loaded or not alike, and if they are, they are finished or
not alike; and the finished libraries give every call the same answer: the same
bindings, written out, or the same error. -/
theorem Library.answer_of_permuted (s : Schema) {types : List TypeDecl}
    {methods : List MethodDecl} (htypes : types.Perm s.types) (hmethods : methods.Perm s.methods) :
    ((∃ d, ofSchema s = .ok d) ↔ ∃ d', ofSchema { s with types, methods } = .ok d') ∧
    ∀ d d', ofSchema s = .ok d → ofSchema { s with types, methods } = .ok d' →
      ((∃ l, d.finish = .ok l) ↔ ∃ l', d'.finish = .ok l') ∧
      ∀ l l', d.finish = .ok l → d'.finish = .ok l' → ∀ method arguments,
        l'.answer method arguments = l.answer method arguments := by
  refine ⟨⟨?_, ?_⟩, fun d d' hd hd' => ?_⟩
  · rintro ⟨d, hd⟩
    obtain ⟨d', hd', -⟩ := embeds_of_permuted hd htypes hmethods
    exact ⟨d', hd'⟩
  · rintro ⟨d', hd'⟩
    obtain ⟨d, hd, -⟩ := embeds_of_permuted hd' htypes.symm hmethods.symm
    exact ⟨d, hd⟩
  · obtain ⟨⟨φ, hφ⟩, ⟨ψ, hψ⟩⟩ := embeds_both htypes hmethods hd hd'
    refine ⟨⟨fun ⟨_, hl⟩ => hφ.finish_ok hl, fun ⟨_, hl'⟩ => hψ.finish_ok hl'⟩, ?_⟩
    intro l l' hl hl' method arguments
    obtain ⟨_, hembeds⟩ := hψ.of_finish hl hl'
    obtain ⟨_, hembeds'⟩ := hφ.of_finish hl' hl
    exact hembeds.answer_of_both hembeds'

/-- The shelf with its declarations in reverse order, so that all types have other
numbers, `Crate<T>` is declared before its base, and that before its interface. -/
theorem Library.answer_of_permuted_shelf :
    (shelf.types.reverse.Perm shelf.types ∧ shelf.methods.reverse.Perm shelf.methods) ∧
    ∃ d l, ofSchema { shelf with types := shelf.types.reverse, methods := shelf.methods.reverse } =
        .ok d ∧
      d.finish = .ok l ∧ l.answer "unlabel" ["Crate<string>"] = .ok [("V", "string")] := by
  have htypes := List.reverse_perm shelf.types
  have hmethods := List.reverse_perm shelf.methods
  obtain ⟨hloaded, hanswers⟩ := answer_of_permuted shelf htypes hmethods
  obtain ⟨d, hd⟩ := hloaded.mp ⟨_, ofSchema_shelf⟩
  obtain ⟨hfinished, hsame⟩ := hanswers _ d ofSchema_shelf hd
  obtain ⟨l, hl⟩ := hfinished.mp ⟨_, finish_shelf⟩
  refine ⟨⟨htypes, hmethods⟩, d, l, hd, hl, ?_⟩
  rw [hsame _ l finish_shelf hl, answer_shelf]

end Generics

/-
Generics.Proofs.Library.Reloading — what a schema has come to once, it comes to again.

Let a schema have come to a catalogue (`Loaded`), in whatever order. Loading it again,
in the order in which it is written, succeeds: along the way every type that is
declared or entered stands for one of that catalogue (`Tracks`), so expressions have
trees, links are allowed, and the limits have room.
-/
import Generics.Proofs.Catalog.Tracking
import Generics.Proofs.Library.Loading

namespace Generics

open TypeTree

namespace Catalog

/-! ## 1. Resolving -/

/-- Names stand for the renamed types. -/
def NamesRenamed (φ : TypeId → TypeId) (c c' : Catalog) : Prop :=
  ∀ name, c'.lookupName? name = (c.lookupName? name).map φ

/-- `c₁` comes after `c` on the way to `c'`, with the same declared types. -/
structure Continues (φ : TypeId → TypeId) (c c₁ c' : Catalog) : Prop where
  tracks : Tracks φ c₁ c'
  preserves : c.Preserves c₁
  isDeclared : ∀ {x}, c₁.isDeclared x = true → c.isDeclared x = true
  declared : c₁.declared = c.declared

section

variable {φ : TypeId → TypeId} {c c₁ c₂ c' : Catalog} {scope : Scope}

theorem NamesRenamed.of_declared (h : NamesRenamed φ c c') (hdeclared : c₁.declared = c.declared) :
    NamesRenamed φ c₁ c' := fun name => by
  rw [h name, lookupName?, lookupName?, hdeclared]

theorem Continues.refl (h : Tracks φ c c') : Continues φ c c c' :=
  ⟨h, .refl c, id, rfl⟩

theorem Continues.trans (h : Continues φ c c₁ c') (h' : Continues φ c₁ c₂ c') :
    Continues φ c c₂ c' :=
  ⟨h'.tracks, h.preserves.trans h'.preserves, fun hx => h.isDeclared (h'.isDeclared hx),
    h'.declared.trans h.declared⟩

namespace Tracks

/-- Loading that enters only what leads somewhere succeeds. -/
theorem ok_of_outcome (h : Tracks φ c c') {α : Type} {X : TypeTree → Prop}
    {Q : α → Catalog → Prop} {U : Prop} {result : Except LibraryError α × Catalog}
    (hX : ∀ u, X u → c.isApplied u = true ∧ ∃ y, c'.tree y = u.rename φ) (hU : ¬ U)
    (hout : Load.Outcome X c Q U result) :
    ∃ a, result = (.ok a, result.2) ∧ Continues φ c result.2 c' ∧ Q a result.2 := by
  have htracks := h.grows hout.grows fun u hu => (hX u hu).2
  rcases hresult : result with ⟨e | a, c₁⟩ <;> rw [hresult] at hout htracks
  · rcases hout.error rfl with hu | ⟨refusal, hrefused⟩
    · exact absurd hu hU
    · refine absurd hrefused (htracks.not_refused fun u hu => ⟨?_, (hX u hu).2⟩)
      rw [isApplied_congr hout.grows.params]
      exact (hX u hu).1
  · refine ⟨a, rfl, ⟨htracks, hout.grows.preserves, fun {x} hx => ?_, hout.grows.declared⟩,
      hout.ok rfl⟩
    obtain ⟨n, hnode, hnot⟩ := isDeclared_iff.mp hx
    rcases hout.grows.added hnode with hold | ⟨happ, -⟩
    · exact isDeclared_iff.mpr ⟨n, hold, hnot⟩
    · rw [hnot] at happ
      cases happ

/-- An expression whose renamed tree is there is resolved. -/
theorem resolveText (h : Tracks φ c c') (hnames : NamesRenamed φ c c') (hscope : scope.Fits c)
    {text : String} {y : TypeId}
    (hy : c'.treeOfText? (scope.rename φ) text = some (c'.tree y)) :
    ∃ x c₁, (Load.resolveText scope text).run.run c = (.ok x, c₁) ∧ Continues φ c c₁ c' ∧
      c₁.knows x = true ∧ c'.tree y = (c₁.tree x).rename φ := by
  rw [h.treeOfText?_rename hnames] at hy
  obtain ⟨t, ht, hrenamed⟩ := Option.map_eq_some_iff.mp hy
  have hout := Load.outcome_resolveText (X := c.AppliedPart t) h.source hscope text
    fun u hu => hu t ht
  obtain ⟨x, hrun, hcontinues, hx, htree⟩ := h.ok_of_outcome
    (fun u hu => ⟨hu.2, h.target.exists_tree_of_part (hu.1.rename φ) ⟨y, hrenamed.symm⟩⟩)
    (by rw [ht]; exact nofun) hout
  refine ⟨x, _, hrun, hcontinues, hx, ?_⟩
  rw [ht, Option.some.injEq] at htree
  rw [← hrenamed, htree]

theorem resolveTexts (h : Tracks φ c c') (hnames : NamesRenamed φ c c') (hscope : scope.Fits c)
    (texts : List String)
    (htexts : ∀ text ∈ texts, ∃ y, c'.treeOfText? (scope.rename φ) text = some (c'.tree y)) :
    ∃ xs c₁, (Load.resolveTexts scope texts).run.run c = (.ok xs, c₁) ∧ Continues φ c c₁ c' := by
  have htrees : ∀ text ∈ texts, ∃ t, c.treeOfText? scope text = some t ∧
      ∃ y, c'.tree y = t.rename φ := by
    intro text htext
    obtain ⟨y, hy⟩ := htexts text htext
    rw [h.treeOfText?_rename hnames] at hy
    obtain ⟨t, ht, hrenamed⟩ := Option.map_eq_some_iff.mp hy
    exact ⟨t, ht, y, hrenamed.symm⟩
  have hout := Load.outcome_resolveTexts
    (X := fun u => ∃ text ∈ texts, ∀ t, c.treeOfText? scope text = some t → c.AppliedPart t u)
    h.source hscope texts fun text htext u hu => ⟨text, htext, hu⟩
  obtain ⟨xs, hrun, hcontinues, -⟩ := h.ok_of_outcome
    (fun u ⟨text, htext, hu⟩ => by
      obtain ⟨t, ht, hy⟩ := htrees text htext
      exact ⟨(hu t ht).2, h.target.exists_tree_of_part ((hu t ht).1.rename φ) hy⟩)
    (by
      rintro ⟨text, htext, hnone⟩
      obtain ⟨t, ht, -⟩ := htrees text htext
      rw [ht] at hnone
      cases hnone) hout
  exact ⟨xs, _, hrun, hcontinues⟩

end Tracks

/-! ## 2. Linking -/

theorem TypeDeclared.isDeclared {decl : TypeDecl} {id : TypeId} (h : c.TypeDeclared decl id) :
    c.isDeclared id = true := by
  obtain ⟨n, hnode, hform⟩ := form?_eq_some.mp h.form
  refine isDeclared_iff.mpr ⟨n, hnode, ?_⟩
  rw [Node.isApplication, hform]
  exact (declaredForm_kinds decl.name decl.kind id decl.params.length).2

/-- A type has the shape of the one that it stands for. -/
theorem Follows.sameShape (h : Follows φ c c') {x y : TypeId} {n n' : Node}
    (hnode : c.node? x = some n) (hnode' : c'.node? y = some n')
    (htree : c'.tree y = (c.tree x).rename φ) : n.SameShape n' := by
  obtain ⟨m, hm, -, hkind, hform⟩ := h.node?_carried hnode
  rw [h.carried_eq htree] at hm
  cases hnode'.symm.trans hm
  constructor
  · rw [Node.isInterface, Node.isInterface, hkind]
  · rw [Node.isParameter, Node.isParameter, hform]
    cases n.form <;> rfl
  · rw [Node.isDefinition, Node.isDefinition, hform]
    cases n.form <;> rfl
  · rw [Node.isApplication, Node.isApplication, hform]
    cases n.form <;> rfl

namespace Tracks

/-- Changing the links of one type. -/
theorem setNode (h : Tracks φ c c') {x : TypeId} {node node' : Node}
    (hc₁ : (c.setNode x node').WellFormed) (hnode : c.node? x = some node)
    (halike : node'.Alike node) : Continues φ c (c.setNode x node') c' := by
  have hp := preserves_setNode hnode halike
  have hp' : (c.setNode x node').Preserves c := by
    intro other n hn
    rcases node?_setNode_cases (knows_of_node? hnode) hn with ⟨rfl, rfl⟩ | ⟨-, hold⟩
    · exact ⟨node, hnode, halike.name.symm, halike.kind.symm, halike.form.symm, halike.depth.symm⟩
    · exact ⟨n, hold, .refl n⟩
  exact ⟨h.relink hc₁ hp hp', hp, hp'.isDeclared, rfl⟩

/-- What is allowed between the types that two types stand for is allowed between
these. -/
theorem baseAllowed (h : Tracks φ c c') {x b y : TypeId} (hx : c.isDeclared x = true)
    (hb : c.knows b = true) (htree : c'.tree y = (c.tree b).rename φ)
    (hallowed : c'.BaseAllowed (φ x) y) : c.BaseAllowed x b := by
  obtain ⟨n', bn', hn', hbn', hfault⟩ := hallowed
  obtain ⟨n, hn, hnot⟩ := isDeclared_iff.mp hx
  obtain ⟨bn, hbn⟩ := node?_of_knows hb
  refine ⟨n, bn, hn, hbn, ?_⟩
  rw [baseFault?_congr (h.sameShape hn hn' (h.tree_of_declared hn hnot))
    (h.sameShape hbn hbn' htree), hfault]

theorem interfaceAllowed (h : Tracks φ c c') {x i y : TypeId} (hx : c.isDeclared x = true)
    (hi : c.knows i = true) (htree : c'.tree y = (c.tree i).rename φ)
    (hallowed : c'.InterfaceAllowed (φ x) y) : c.InterfaceAllowed x i := by
  obtain ⟨n', m', hn', hm', hfault⟩ := hallowed
  obtain ⟨n, hn, hnot⟩ := isDeclared_iff.mp hx
  obtain ⟨m, hm⟩ := node?_of_knows hi
  refine ⟨n, m, hn, hm, ?_⟩
  rw [interfaceFault?_congr (h.sameShape hn hn' (h.tree_of_declared hn hnot))
    (h.sameShape hm hm' htree), hfault]

theorem linkBase (h : Tracks φ c c') (hnames : NamesRenamed φ c c') (hscope : scope.Fits c)
    {x : TypeId} (hx : c.isDeclared x = true) {text? : Option String}
    (hlinked : c'.BaseLinked (scope.rename φ) text? (φ x)) :
    ∃ c₁, (Load.linkBase scope x text?).run.run c = (.ok (), c₁) ∧ Continues φ c c₁ c' := by
  cases text? with
  | none => exact ⟨c, rfl, .refl h⟩
  | some text =>
    obtain ⟨y, hy, hytree⟩ := Option.map_eq_some_iff.mp hlinked.tree.symm
    obtain ⟨b, c₁, hresolve, hc₁, hb, htree⟩ := h.resolveText hnames hscope hytree.symm
    obtain ⟨n, bn, hn, hbn, hfault⟩ := hc₁.tracks.baseAllowed (hc₁.preserves.isDeclared hx) hb
      htree (hlinked.allowed hy)
    have hset := setBase_eq_ok_iff.mpr ⟨n, bn, hn, hbn, hfault, rfl⟩
    have hwf := hc₁.tracks.source.setBase x b
    rw [hset] at hwf
    exact ⟨_, Load.run_linkBase_some hresolve hset,
      hc₁.trans (hc₁.tracks.setNode hwf hn ⟨rfl, rfl, rfl, rfl⟩)⟩

theorem linkInterfaces (h : Tracks φ c c') (hnames : NamesRenamed φ c c') (hscope : scope.Fits c)
    {x : TypeId} (hx : c.isDeclared x = true) (texts : List String)
    (htexts : ∀ text ∈ texts, ∃ y, c'.treeOfText? (scope.rename φ) text = some (c'.tree y) ∧
      c'.InterfaceAllowed (φ x) y) :
    ∃ c₁, (Load.linkInterfaces scope x texts).run.run c = (.ok (), c₁) ∧ Continues φ c c₁ c' := by
  induction texts generalizing c with
  | nil => exact ⟨c, rfl, .refl h⟩
  | cons text rest ih =>
    obtain ⟨y, hy, hallowed⟩ := htexts text List.mem_cons_self
    obtain ⟨i, c₁, hresolve, hc₁, hi, htree⟩ := h.resolveText hnames hscope hy
    obtain ⟨n, m, hn, hm, hfault⟩ := hc₁.tracks.interfaceAllowed (hc₁.preserves.isDeclared hx) hi
      htree hallowed
    obtain ⟨c₂, hadd, hc₂⟩ : ∃ c₂, (addInterface x i).run.run c₁ = (.ok (), c₂) ∧
        Continues φ c₁ c₂ c' := by
      have hadd := addInterface_eq_ok_iff.mpr ⟨n, m, hn, hm, hfault, rfl⟩
      have hwf := hc₁.tracks.source.addInterface x i
      rw [hadd] at hwf
      refine ⟨_, hadd, ?_⟩
      split
      · exact .refl hc₁.tracks
      · rename_i hnew
        rw [if_neg hnew] at hwf
        exact hc₁.tracks.setNode hwf hn ⟨rfl, rfl, rfl, rfl⟩
    have hreached := hc₁.trans hc₂
    obtain ⟨c₃, hrest, hc₃⟩ := ih hreached.tracks (hnames.of_declared hreached.declared)
      (hscope.mono hreached.preserves) (hreached.preserves.isDeclared hx)
      fun other hother => htexts other (List.mem_cons_of_mem _ hother)
    exact ⟨c₃, Load.run_linkInterfaces_cons hresolve hadd hrest, hreached.trans hc₃⟩

theorem linkTypes (h : Tracks φ c c') (hnames : NamesRenamed φ c c')
    (pairs : List (TypeDecl × TypeId))
    (htypes : ∀ p ∈ pairs, c.TypeDeclared p.1 p.2 ∧ c'.TypeLinked p.1 (φ p.2)) :
    ∃ c₁, (Load.linkTypes pairs).run.run c = (.ok (), c₁) ∧ Continues φ c c₁ c' := by
  induction pairs generalizing c with
  | nil => exact ⟨c, rfl, .refl h⟩
  | cons p rest ih =>
    obtain ⟨decl, x⟩ := p
    obtain ⟨hdeclared, hbase, ids, hids⟩ := htypes _ List.mem_cons_self
    have hscope := hdeclared.params.fits
    have hx := hdeclared.isDeclared
    simp only [h.params, ← Scope.ofParams_rename] at hbase hids
    obtain ⟨c₁, hrun₁, hc₁⟩ := h.linkBase hnames hscope hx hbase
    obtain ⟨c₂, hrun₂, hc₂⟩ := hc₁.tracks.linkInterfaces (hnames.of_declared hc₁.declared)
      (hscope.mono hc₁.preserves) (hc₁.preserves.isDeclared hx) decl.interfaces
      fun text htext => by
        obtain ⟨i, hi, htree⟩ := hids.exists_tree htext
        exact ⟨i, htree, hids.allowed hi⟩
    have hreached := hc₁.trans hc₂
    obtain ⟨c₃, hrun₃, hc₃⟩ := ih hreached.tracks (hnames.of_declared hreached.declared)
      fun p hp => by
        obtain ⟨hp₁, hp₂⟩ := htypes p (List.mem_cons_of_mem _ hp)
        refine ⟨hp₁.mono hreached.tracks.source hreached.preserves ?_, hp₂⟩
        rw [lookupName?, hreached.declared]
        exact hp₁.lookup
    exact ⟨c₃, Load.run_linkTypes_cons hrun₁ hrun₂ hrun₃, hreached.trans hc₃⟩

end Tracks

/-! ## 3. Declaring types -/

/-- A declared type stands for the node of its declaration. -/
theorem TypeDeclared.standsFor {decl : TypeDecl} {y : TypeId} (hy : c'.TypeDeclared decl y)
    (hc' : c'.WellFormed) (start : Nat) :
    c'.StandsFor start (y :: c'.params y)
      ⟨decl.name, decl.kind, declaredForm ⟨start⟩ decl.params.length, 0, none, []⟩ y := by
  obtain ⟨n', hnode', hname, -⟩ := hc'.declared hy.lookup
  refine ⟨n', hnode', hname, ?_, fun θ hθ => ?_⟩
  · have hkind := hy.kind
    rw [kind?, hnode'] at hkind
    exact Option.some.inj hkind
  · have hform := form?_of_node? hnode'
    rw [hy.form] at hform
    rw [← Option.some.inj hform, declaredForm, declaredForm]
    by_cases hcount : decl.params.length = 0
    · rw [if_pos hcount, if_pos hcount]
      rfl
    · rw [if_neg hcount, if_neg hcount, Form.rename, List.map_map]
      refine congrArg Form.definition (List.map_congr_left fun j hj => ?_)
      have hparam : (y :: c'.params y)[j + 1]? = some ⟨y.index + 1 + j⟩ := by
        rw [List.getElem?_cons_succ, params_of_declaredForm hy.form, List.getElem?_map,
          List.getElem?_range (List.mem_range.mp hj)]
        rfl
      rw [← hθ (j + 1) _ hparam, Function.comp_apply]
      exact congrArg (fun k => θ ⟨k⟩) (Nat.add_right_comm start j 1)

/-- Declared type parameters stand for the nodes of new ones. -/
theorem NamedParams.standsFor {names : List String} {ys zs : List TypeId}
    (hys : c'.NamedParams names ys) {start i : Nat} {n : Node} {y : TypeId}
    (hn : (names.mapIdx parameterNode)[i]? = some n) (hy : ys[i]? = some y) :
    c'.StandsFor start zs n y := by
  rw [List.getElem?_mapIdx] at hn
  obtain ⟨name, hname, rfl⟩ := Option.map_eq_some_iff.mp hn
  obtain ⟨name', hname', hnode'⟩ := hys.node?_of_getElem? hy
  cases hname.symm.trans hname'
  exact ⟨_, hnode', rfl, rfl, fun _ _ => rfl⟩

/-- A type that is to be declared, and is declared in `c'`. -/
theorem newTypes_declare (hc : c.WellFormed) (hc' : c'.WellFormed) {decl : TypeDecl} {y : TypeId}
    (hy : c'.TypeDeclared decl y)
    (hfree : ∀ x, c.isDeclared x = true → φ x ∉ y :: c'.params y) :
    NewTypes φ c (c.declare decl.kind decl.name decl.params).2 c'
      (⟨decl.name, decl.kind, declaredForm c.nextId decl.params.length, 0, none, []⟩ ::
        decl.params.mapIdx parameterNode) (y :: c'.params y) where
  nodes := congrArg Catalog.nodes (declare_eq c decl.kind decl.name decl.params)
  wellFormed := hc.declare decl.kind decl.name decl.params
  notApplied := by
    intro n hn
    rcases List.mem_cons.mp hn with rfl | hn
    · exact (declaredForm_kinds ..).2
    · obtain ⟨i, hi, rfl⟩ := List.mem_mapIdx.mp hn
      rfl
  length := by simp [hy.params.length_eq]
  nodup := hy.nodup hc'
  free := hfree
  stands := by
    intro i n z hn hz
    cases i with
    | zero =>
      cases hn
      cases hz
      exact hy.standsFor hc' c.size
    | succ i => exact hy.params.standsFor hn hz

namespace Tracks

/-- Declaring what is declared in `c'`, and has nothing standing for it yet. -/
theorem declareTypes (h : Tracks φ c c') {decls : List TypeDecl}
    (htypes : ∀ decl ∈ decls, ∃ y, c'.TypeDeclared decl y)
    (hdistinct : (decls.map TypeDecl.name).Nodup)
    (hnew : ∀ decl ∈ decls, c.lookupName? decl.name = none)
    (hfree : ∀ decl ∈ decls, ∀ y, c'.TypeDeclared decl y →
      ∀ x, c.isDeclared x = true → φ x ∉ y :: c'.params y) :
    ∃ ids c₁ ψ, (Load.declareTypes decls).run.run c = (.ok ids, c₁) ∧ Tracks ψ c₁ c' ∧
      (∀ x, c.isDeclared x = true → ψ x = φ x) ∧
      (∀ x, c₁.isDeclared x = true → c.isDeclared x = true ∨
        ∃ decl ∈ decls, ∃ y, c'.TypeDeclared decl y ∧ ψ x ∈ y :: c'.params y) ∧
      List.Forall₂ (fun decl x => c'.TypeDeclared decl (ψ x)) decls ids := by
  -- the renaming grows with the catalogue, and stays as it is for what was declared before
  induction decls generalizing φ c with
  | nil => exact ⟨[], c, φ, rfl, h, fun _ _ => rfl, fun _ => .inl, .nil⟩
  | cons decl rest ih =>
    obtain ⟨y, hy⟩ := htypes decl List.mem_cons_self
    have hn := newTypes_declare h.source h.target hy (hfree decl List.mem_cons_self y hy)
    have hdistinct' := List.nodup_cons.mp hdistinct
    have hother : ∀ other ∈ rest, other.name ≠ decl.name := fun other hmem hname =>
      hdistinct'.1 (hname ▸ List.mem_map_of_mem hmem)
    have hfirst : (c.declare decl.kind decl.name decl.params).2.isDeclared c.nextId = true :=
      (TypeDeclared.of_declare (hnew decl List.mem_cons_self)).isDeclared
    have hnext : extended φ c (c.declare decl.kind decl.name decl.params).2 c'
        (y :: c'.params y) c.nextId = y := hn.extended_new (j := 0) rfl
    obtain ⟨ids, c₁, ψ, hrun, htracks, hagree, hblocks, hids⟩ := ih (hn.tracks h)
      (fun other hmem => htypes other (List.mem_cons_of_mem _ hmem)) hdistinct'.2
      (fun other hmem => by
        rw [lookupName?_declare (hother other hmem)]
        exact hnew other (List.mem_cons_of_mem _ hmem))
      (fun other hmem z hz x hx => by
        rcases hn.extended_cases hx with ⟨hold, heq⟩ | hin
        · rw [heq]
          exact hfree other (List.mem_cons_of_mem _ hmem) z hz x hold
        · exact hy.disjoint hz h.target (hother other hmem).symm hin)
    refine ⟨c.nextId :: ids, c₁, ψ, Load.run_declareTypes_cons (hnew decl List.mem_cons_self) hrun,
      htracks, fun x hx => ?_, fun x hx => ?_, .cons ?_ hids⟩
    · rw [hagree x ((preserves_append hn.nodes).isDeclared hx), hn.extended_old hx]
    · rcases hblocks x hx with hx' | ⟨other, hmem, hother⟩
      · rcases hn.extended_cases hx' with ⟨hold, -⟩ | hin
        · exact .inl hold
        · exact .inr ⟨decl, List.mem_cons_self, y, hy, by rwa [hagree x hx']⟩
      · exact .inr ⟨other, List.mem_cons_of_mem _ hmem, hother⟩
    · rw [hagree _ hfirst, hnext]
      exact hy

end Tracks

/-! ## 4. Declaring methods -/

/-- Names stand for declared types, so it is only for these that the renaming
matters. -/
theorem NamesRenamed.congr {ψ : TypeId → TypeId} (h : NamesRenamed φ c c') (hc : c.WellFormed)
    (hagree : ∀ x, c.isDeclared x = true → ψ x = φ x) : NamesRenamed ψ c c' := fun name => by
  rw [h name]
  refine Option.map_congr fun x hx => ?_
  obtain ⟨n, hnode, -, -, hnot⟩ := hc.declared hx
  exact (hagree x (isDeclared_iff.mpr ⟨n, hnode, hnot⟩)).symm

/-- Type parameters that are to be declared, and are declared in `c'`. -/
theorem newTypes_addParameters (hc : c.WellFormed) {names : List String} {ys : List TypeId}
    (hys : c'.NamedParams names ys) (hfree : ∀ x, c.isDeclared x = true → φ x ∉ ys) :
    NewTypes φ c (c.addParameters names).2 c' (names.mapIdx parameterNode) ys where
  nodes := nodes_addParameters c names
  wellFormed := hc.addParametersFrom 0 names
  notApplied := by
    intro n hn
    obtain ⟨i, hi, rfl⟩ := List.mem_mapIdx.mp hn
    rfl
  length := by rw [hys.length_eq, List.length_mapIdx]
  nodup := hys.nodup
  free := hfree
  stands _ _ _ hn hy := hys.standsFor hn hy

/-- The new type parameters stand for those of `c'`, in order. -/
theorem map_extended_addParameters {names : List String} {ys : List TypeId}
    (hn : NewTypes φ c (c.addParameters names).2 c' (names.mapIdx parameterNode) ys) :
    (c.addParameters names).1.map (extended φ c (c.addParameters names).2 c' ys) = ys := by
  have hlength : ys.length = names.length := by rw [hn.length, List.length_mapIdx]
  rw [addParameters, fst_addParametersFrom, List.map_map]
  refine List.ext_getElem (by simp [hlength]) fun i hi hi' => ?_
  rw [List.getElem_map, List.getElem_range, Function.comp_apply]
  exact hn.extended_new (List.getElem?_eq_getElem hi')

namespace Tracks

/-- Declaring methods that are declared in `c'`, and have nothing standing for their
type parameters yet. -/
theorem declareMethods (h : Tracks φ c c') (hnames : NamesRenamed φ c c') (taken : List String)
    {decls : List MethodDecl} {ms : List Method}
    (hmethods : List.Forall₂ c'.MethodDeclared decls ms)
    (hdistinct : (decls.map MethodDecl.name).Nodup) (hnew : ∀ decl ∈ decls, decl.name ∉ taken)
    (hfree : ∀ m ∈ ms, ∀ x, c.isDeclared x = true → φ x ∉ m.typeParams)
    (hapart : ms.Pairwise fun m m' => m.typeParams.Disjoint m'.typeParams) :
    ∃ ms₁ c₁ ψ, (Load.declareMethods taken decls).run.run c = (.ok ms₁, c₁) ∧ Tracks ψ c₁ c' ∧
      NamesRenamed ψ c₁ c' ∧ List.Forall₂ (fun m₁ m => m₁.typeParams.map ψ = m.typeParams) ms₁ ms ∧
      ∀ x, c.isDeclared x = true → ψ x = φ x := by
  induction hmethods generalizing φ c taken with
  | nil => exact ⟨[], c, φ, rfl, h, hnames, .nil, fun _ _ => rfl⟩
  | @cons decl m rest ms hm _ ih =>
    have hn := newTypes_addParameters h.source hm.typeParams (hfree m List.mem_cons_self)
    have hids := map_extended_addParameters hn
    have hscope := (namedParams_addParameters c decl.typeParams).fits
    have hnames' : NamesRenamed (extended φ c (c.addParameters decl.typeParams).2 c' m.typeParams)
        (c.addParameters decl.typeParams).2 c' :=
      (hnames.congr h.source fun x hx => hn.extended_old hx).of_declared
        (declared_addParameters c decl.typeParams)
    obtain ⟨params, c₁, hresolve, hc₁⟩ := (hn.tracks h).resolveTexts hnames' hscope
      decl.params fun text htext => by
        rw [Scope.ofParams_rename, hids]
        exact hm.exists_tree htext
    have hdistinct' := List.nodup_cons.mp hdistinct
    have hapart' := List.pairwise_cons.mp hapart
    obtain ⟨others, c₂, ψ, hrun, htracks, hnames₂, hothers, hagree⟩ := ih hc₁.tracks
      (hnames'.of_declared hc₁.declared) (decl.name :: taken) hdistinct'.2
      (fun other hmem => by
        rw [List.mem_cons, not_or]
        exact ⟨fun hname => hdistinct'.1 (hname ▸ List.mem_map_of_mem hmem),
          hnew other (List.mem_cons_of_mem _ hmem)⟩)
      (fun other hmem x hx => by
        rcases hn.extended_cases (hc₁.isDeclared hx) with ⟨hold, heq⟩ | hin
        · rw [heq]
          exact hfree other (List.mem_cons_of_mem _ hmem) x hold
        · exact hapart'.1 other hmem hin)
      hapart'.2
    refine ⟨_, c₂, ψ, Load.run_declareMethods_cons (hnew decl List.mem_cons_self) hresolve hrun,
      htracks, hnames₂, .cons ?_ hothers, fun x hx => ?_⟩
    · rw [← hids]
      refine List.map_congr_left fun p hp => hagree p (hc₁.preserves.isDeclared ?_)
      exact isDeclared_of_isParameter ((namedParams_addParameters c decl.typeParams).isParameter hp)
    · rw [hagree x (hc₁.preserves.isDeclared ((preserves_append hn.nodes).isDeclared hx)),
        hn.extended_old hx]

end Tracks

end

end Catalog

/-! ## 5. Loading again -/

namespace Loaded

open Catalog

variable {s : Schema} {c : Catalog} {ms : List Method}

/-- After the types are declared, names stand for the same declarations. -/
theorem namesRenamed (h : Loaded s c ms) {c₁ : Catalog} {ids : List TypeId} {ψ : TypeId → TypeId}
    (hd : Catalog.empty.Declares c₁ s.types ids)
    (hids : List.Forall₂ (fun decl x => c.TypeDeclared decl (ψ x)) s.types ids) :
    NamesRenamed ψ c₁ c := by
  intro name
  by_cases hname : ∃ decl ∈ s.types, decl.name = name
  · obtain ⟨decl, hdecl, rfl⟩ := hname
    rw [← List.map_fst_zip (Nat.le_of_eq hids.length_eq)] at hdecl
    obtain ⟨p, hp, rfl⟩ := List.mem_map.mp hdecl
    rw [((List.forall₂_iff_zip.mp hd.types).2 hp).lookup,
      ((List.forall₂_iff_zip.mp hids).2 hp).lookup]
    rfl
  · have hc₁ : c₁.lookupName? name = none := by
      refine Option.eq_none_iff_forall_ne_some.mpr fun x hx => hname ?_
      obtain ⟨n, hnode, rfl, hparam, -⟩ := hd.wellFormed.declared hx
      obtain ⟨-, -, -, hkind⟩ := (hd.added hnode).resolve_left (by simp [empty, node?])
      rw [hparam, ← List.map_snd_zip (Nat.le_of_eq hd.types.length_eq.symm)] at hkind
      obtain ⟨p, hp, rfl⟩ := List.mem_map.mp (hkind.resolve_left Bool.false_ne_true)
      refine ⟨p.1, (List.of_mem_zip hp).1, ?_⟩
      rw [← ((List.forall₂_iff_zip.mp hd.types).2 hp).name_eq hd.wellFormed, Catalog.name, hnode]
      rfl
    have hc : c.lookupName? name = none := by
      refine Option.eq_none_iff_forall_ne_some.mpr fun x hx => hname ?_
      obtain ⟨n, hnode, rfl, hparam, happ⟩ := h.wellFormed.declared hx
      obtain ⟨decl, hdecl, hdeclared⟩ := h.declared hnode happ hparam
      refine ⟨decl, hdecl, ?_⟩
      rw [← hdeclared.name_eq h.wellFormed, Catalog.name, hnode]
      rfl
    rw [hc₁, hc]
    rfl

/-- What a schema has come to once, it comes to when it is loaded. -/
theorem reload (h : Loaded s c ms) :
    ∃ ms₁ c₁ ψ, (Load.schema s).run.run .empty = (.ok ms₁, c₁) ∧ Tracks ψ c₁ c ∧
      NamesRenamed ψ c₁ c ∧
      List.Forall₂ (fun m₁ m => m₁.typeParams.map ψ = m.typeParams) ms₁ ms := by
  have hempty : ∀ x, Catalog.empty.isDeclared x = false := fun x => by
    simp [isDeclared, empty, node?]
  -- types: nothing is declared yet, so nothing is in the way
  have hstart := Tracks.empty h.wellFormed id
  obtain ⟨ids, c₁, ψ, hrun₁, htracks, -, hblocks, hids⟩ := hstart.declareTypes
    (fun decl hdecl => (h.types hdecl).imp fun _ hy => hy.1) h.typeNames
    (fun decl _ => lookupName?_empty decl.name)
    (fun decl _ y _ x hx => by rw [hempty x] at hx; cases hx)
  have hd := Load.declares_of_declareTypes empty_wellFormed hrun₁
  have hnames := h.namesRenamed hd hids
  -- links: the renamed type is the one that is found under the same name
  obtain ⟨c₂, hrun₂, hc₂⟩ := htracks.linkTypes hnames (s.types.zip ids) fun p hp => by
    refine ⟨(List.forall₂_iff_zip.mp hd.types).2 hp, ?_⟩
    obtain ⟨y, hy, hlinked⟩ := h.types (List.of_mem_zip hp).1
    have hlookup := ((List.forall₂_iff_zip.mp hids).2 hp).lookup
    rw [hy.lookup] at hlookup
    exact Option.some.inj hlookup ▸ hlinked
  -- methods: their type parameters are neither types nor parameters of types
  obtain ⟨ms₁, c₃, θ, hrun₃, htracks₃, hnames₃, hms, -⟩ := hc₂.tracks.declareMethods
    (hnames.of_declared hc₂.declared) [] h.methods h.methodNames (fun _ _ => List.not_mem_nil)
    (fun m hm x hx hmem => by
      obtain ⟨decl, -, hm'⟩ := h.exists_decl hm
      rcases hblocks x (hc₂.isDeclared hx) with hx | ⟨decl', -, y, hy, hin⟩
      · rw [hempty x] at hx
        cases hx
      · rcases List.mem_cons.mp hin with heq | hin
        · have hparam := hm'.typeParams.isParameter hmem
          rw [heq, hy.isParameter_eq_false h.wellFormed] at hparam
          cases hparam
        · exact h.fresh m hm _ hmem y hin)
    h.apart
  refine ⟨ms₁, c₃, θ, ?_, htracks₃, hnames₃, hms⟩
  rw [Load.schema, Load.run_bind_ok hrun₁, Load.run_bind_ok hrun₂, hrun₃]

end Loaded

end Generics

/-
Generics.Proofs.Library.Loading — what a loaded schema has come to.

Loading declares all types, then links them, then declares the methods. If it
succeeds, each phase has brought about what its declarations say, and the later ones
have left it in place. So all of it holds of the catalogue at the end (`Loaded`).
-/
import Generics.Proofs.Distinct
import Generics.Proofs.Library.Declarations

namespace Generics

/-! ## 1. Runs that succeed -/

namespace Load

open Catalog

section

variable {α β : Type} {x : Load α} {f : α → Load β} {c c' : Catalog}

theorem run_bind_eq_ok {b : β} (h : (x >>= f).run.run c = (.ok b, c')) :
    ∃ a c₁, x.run.run c = (.ok a, c₁) ∧ (f a).run.run c₁ = (.ok b, c') := by
  rcases hx : x.run.run c with ⟨e | a, c₁⟩
  · rw [run_bind_error hx] at h
    cases h
  · rw [run_bind_ok hx] at h
    exact ⟨a, c₁, rfl, h⟩

theorem run_modifyGet_bind (g : Catalog → α × Catalog) (f : α → Load β) (c : Catalog) :
    (do f (← modifyGet g) : Load β).run.run c = (f (g c).1).run.run (g c).2 := rfl

theorem run_ofBuild_eq_ok {x : Build α} {a : α} (h : (ofBuild x).run.run c = (.ok a, c')) :
    x.run.run c = (.ok a, c') := by
  rw [run_ofBuild] at h
  rcases hx : x.run.run c with ⟨e | a', c₁⟩
  · rw [hx] at h
    cases h
  · rw [hx] at h
    cases h
    rfl

end

theorem run_declareTypes_cons {c c' : Catalog} {decl : TypeDecl} {rest : List TypeDecl}
    {ids : List TypeId} (hnew : c.lookupName? decl.name = none)
    (hrest : (declareTypes rest).run.run (c.declare decl.kind decl.name decl.params).2 =
      (.ok ids, c')) :
    (declareTypes (decl :: rest)).run.run c = (.ok (c.nextId :: ids), c') := by
  rw [declareTypes, run_get_bind, if_neg (by simp [hnew]), run_modifyGet_bind, run_bind_ok hrest]
  rfl

theorem run_declareMethods_cons {c c₁ c' : Catalog} {decl : MethodDecl} {rest : List MethodDecl}
    {taken : List String} {params : List TypeId} {ms : List Method} (hnew : decl.name ∉ taken)
    (hparams : (resolveTexts (Scope.ofParams decl.typeParams (c.addParameters decl.typeParams).1)
      decl.params).run.run (c.addParameters decl.typeParams).2 = (.ok params, c₁))
    (hrest : (declareMethods (decl.name :: taken) rest).run.run c₁ = (.ok ms, c')) :
    (declareMethods taken (decl :: rest)).run.run c =
      (.ok (⟨decl.name, (c.addParameters decl.typeParams).1, params⟩ :: ms), c') := by
  rw [declareMethods, if_neg (by simpa using hnew), run_modifyGet_bind, run_bind_ok hparams,
    run_bind_ok hrest]
  rfl

theorem run_linkBase_some {c c₁ c' : Catalog} {scope : Scope} {type base : TypeId} {text : String}
    (hresolve : (resolveText scope text).run.run c = (.ok base, c₁))
    (hset : (setBase type base).run.run c₁ = (.ok (), c')) :
    (linkBase scope type (some text)).run.run c = (.ok (), c') := by
  rw [linkBase, run_bind_ok hresolve, run_ofBuild_ok hset]

theorem run_linkInterfaces_cons {c c₁ c₂ c' : Catalog} {scope : Scope} {type i : TypeId}
    {text : String} {rest : List String}
    (hresolve : (resolveText scope text).run.run c = (.ok i, c₁))
    (hadd : (addInterface type i).run.run c₁ = (.ok (), c₂))
    (hrest : (linkInterfaces scope type rest).run.run c₂ = (.ok (), c')) :
    (linkInterfaces scope type (text :: rest)).run.run c = (.ok (), c') := by
  rw [linkInterfaces, run_bind_ok hresolve, run_bind_ok (run_ofBuild_ok hadd), hrest]

theorem run_linkTypes_cons {c c₁ c₂ c' : Catalog} {decl : TypeDecl} {id : TypeId}
    {rest : List (TypeDecl × TypeId)}
    (hbase : (linkBase (Scope.ofParams decl.params (c.params id)) id decl.base).run.run c =
      (.ok (), c₁))
    (hinterfaces : (linkInterfaces (Scope.ofParams decl.params (c.params id)) id
      decl.interfaces).run.run c₁ = (.ok (), c₂))
    (hrest : (linkTypes rest).run.run c₂ = (.ok (), c')) :
    (linkTypes ((decl, id) :: rest)).run.run c = (.ok (), c') := by
  rw [linkTypes, run_get_bind, run_bind_ok hbase, run_bind_ok hinterfaces, hrest]

/-! ## 2. Phases -/

theorem declares_of_declareTypes {c c' : Catalog} (hc : c.WellFormed) {decls : List TypeDecl}
    {ids : List TypeId} (hrun : (declareTypes decls).run.run c = (.ok ids, c')) :
    c.Declares c' decls ids := by
  induction decls generalizing c ids with
  | nil =>
    cases hrun
    exact ⟨hc, .refl _, id, .nil, nofun, .nil, .inl⟩
  | cons decl rest ih =>
    rw [declareTypes, run_get_bind] at hrun
    split at hrun
    · cases hrun
    rename_i hfree
    have hnew : c.lookupName? decl.name = none := by simpa using hfree
    rw [run_modifyGet_bind] at hrun
    obtain ⟨others, c₁, hrest, hpure⟩ := run_bind_eq_ok hrun
    cases hpure
    exact (ih (hc.declare decl.kind decl.name decl.params) hrest).cons hnew

section

variable {c c' : Catalog} {id : TypeId} {scope : Scope}

theorem resolveText_ok (hc : c.WellFormed) (hscope : scope.Fits c) {text : String}
    (hrun : (resolveText scope text).run.run c = (.ok id, c')) :
    Grows (fun _ => True) c c' ∧ c'.knows id = true ∧
      c.treeOfText? scope text = some (c'.tree id) := by
  have hout := outcome_resolveText (X := fun _ => True) hc hscope text fun _ _ => trivial
  rw [hrun] at hout
  exact ⟨hout.grows, hout.ok rfl⟩

theorem linkBase_ok (hc : c.WellFormed) (hscope : scope.Fits c) (hid : c.knows id = true)
    (hnone : c.base? id = none) {text? : Option String}
    (hrun : (linkBase scope id text?).run.run c = (.ok (), c')) :
    Extends (· = id) c c' ∧ c'.BaseLinked scope text? id ∧ c'.interfaces id = c.interfaces id := by
  cases text? with
  | none =>
    cases hrun
    exact ⟨.refl hc, ⟨by rw [hnone]; rfl, fun hb => by rw [hnone] at hb; cases hb⟩, rfl⟩
  | some text =>
    rw [linkBase] at hrun
    obtain ⟨b, c₁, hresolve, hlink⟩ := run_bind_eq_ok hrun
    obtain ⟨hg, hb, htree⟩ := resolveText_ok hc hscope hresolve
    have hset := run_ofBuild_eq_ok hlink
    have hwf := hg.wellFormed.setBase id b
    rw [hset] at hwf
    obtain ⟨node, baseNode, hnode, hbase, hfault, rfl⟩ := setBase_eq_ok_iff.mp hset
    have hextends := (hg.extends (· = id)).trans (.setNode hwf hnode ⟨rfl, rfl, rfl, rfl⟩)
      fun other hother => hother ▸ hid
    have hnew : (c₁.setNode id { node with base := some b }).node? id =
        some { node with base := some b } := by
      rw [node?_setNode (knows_of_node? hnode), if_pos rfl]
    have hp : c₁.Preserves (c₁.setNode id { node with base := some b }) :=
      preserves_setNode hnode ⟨rfl, rfl, rfl, rfl⟩
    refine ⟨hextends, ⟨?_, fun hb' => ?_⟩, ?_⟩
    · rw [hextends.treeOfText? hc, Option.map_some, htree, base?, hnew]
      exact congrArg (fun t => some (some t)) (hp.tree hb).symm
    · rw [base?, hnew] at hb'
      cases hb'
      exact BaseAllowed.mono ⟨node, baseNode, hnode, hbase, hfault⟩ hp
    · obtain ⟨old, hold⟩ := node?_of_knows hid
      cases hnode.symm.trans (hg.kept hold)
      rw [interfaces, interfaces, hnew, hold]
      rfl

/-- One more interface. -/
theorem linkInterface_ok (hc : c.WellFormed) (hscope : scope.Fits c) (hid : c.knows id = true)
    {text : String} {texts : List String} {ids : List TypeId}
    (hlinked : c.InterfacesLinked scope texts id ids) {i : TypeId} {c₁ : Catalog}
    (hresolve : (resolveText scope text).run.run c = (.ok i, c₁))
    (hrun : (addInterface id i).run.run c₁ = (.ok (), c')) :
    Extends (· = id) c c' ∧ c'.InterfacesLinked scope (texts ++ [text]) id (ids ++ [i]) ∧
      c'.base? id = c.base? id := by
  obtain ⟨hg, hi, htree⟩ := resolveText_ok hc hscope hresolve
  have hwf := hg.wellFormed.addInterface id i
  rw [hrun] at hwf
  obtain ⟨node, interfaceNode, hnode, himplemented, hfault, heq⟩ := addInterface_eq_ok_iff.mp hrun
  obtain ⟨old, hold⟩ := node?_of_knows hid
  cases hnode.symm.trans (hg.kept hold)
  have hinterfaces : node.interfaces = ids.eraseDups := by
    rw [← hlinked.interfaces, interfaces, hold]
    rfl
  have hstep : Extends (· = id) c₁ c' ∧ c'.interfaces id = (ids ++ [i]).eraseDups ∧
      c'.base? id = node.base := by
    have hmem_iff : i ∈ node.interfaces ↔ i ∈ ids := by rw [hinterfaces, List.mem_eraseDups]
    rw [eraseDups_concat, ← hinterfaces]
    by_cases hmem : i ∈ node.interfaces
    · rw [if_pos hmem] at heq
      rw [if_pos (hmem_iff.mp hmem)]
      subst heq
      exact ⟨.refl hwf, by rw [interfaces, hnode]; rfl, by rw [base?, hnode]; rfl⟩
    · rw [if_neg hmem] at heq
      rw [if_neg fun hids => hmem (hmem_iff.mpr hids)]
      subst heq
      refine ⟨.setNode hwf hnode ⟨rfl, rfl, rfl, rfl⟩, ?_, ?_⟩
      · rw [interfaces, node?_setNode (knows_of_node? hnode), if_pos rfl]
        rfl
      · rw [base?, node?_setNode (knows_of_node? hnode), if_pos rfl]
        rfl
  obtain ⟨he, hinterfaces', hbase⟩ := hstep
  have hextends := (hg.extends (· = id)).trans he fun other hother => hother ▸ hid
  have hallowed : c₁.InterfaceAllowed id i := ⟨node, interfaceNode, hnode, himplemented, hfault⟩
  refine ⟨hextends, ⟨?_, hinterfaces', fun {j} hj => ?_⟩, by rw [hbase, base?, hold]; rfl⟩
  · have htrees : ids.map (fun j => some (c'.tree j)) = ids.map fun j => some (c.tree j) :=
      List.map_congr_left fun j hj => by
        rw [hextends.preserves.tree (hlinked.allowed hj).knows]
    rw [hextends.treeOfText? hc, List.map_append, List.map_append, hlinked.trees,
      List.map_singleton, List.map_singleton, htree, he.preserves.tree hi, htrees]
  · rcases List.mem_append.mp hj with hj | hj
    · exact (hlinked.allowed hj).mono hextends.preserves
    · rw [List.mem_singleton.mp hj]
      exact hallowed.mono he.preserves

theorem linkInterfaces_ok (hc : c.WellFormed) (hscope : scope.Fits c) (hid : c.knows id = true)
    {before texts : List String} {ids : List TypeId}
    (hlinked : c.InterfacesLinked scope before id ids)
    (hrun : (linkInterfaces scope id texts).run.run c = (.ok (), c')) :
    Extends (· = id) c c' ∧ (∃ ids', c'.InterfacesLinked scope (before ++ texts) id ids') ∧
      c'.base? id = c.base? id := by
  induction texts generalizing c before ids with
  | nil =>
    cases hrun
    exact ⟨.refl hc, ⟨ids, by rwa [List.append_nil]⟩, rfl⟩
  | cons text rest ih =>
    rw [linkInterfaces] at hrun
    obtain ⟨i, c₁, hresolve, hrun⟩ := run_bind_eq_ok hrun
    obtain ⟨_, c₂, hadd, hrun⟩ := run_bind_eq_ok hrun
    obtain ⟨he, hlinked', hbase⟩ := linkInterface_ok hc hscope hid hlinked hresolve
      (run_ofBuild_eq_ok hadd)
    obtain ⟨he', hlinks, hbase'⟩ := ih he.wellFormed (hscope.mono he.preserves)
      (he.preserves.knows hid) hlinked' hrun
    refine ⟨he.trans he' fun other hother => hother ▸ hid, ?_, hbase'.trans hbase⟩
    rwa [List.append_assoc] at hlinks

end

/-- The links of one type. -/
theorem linkType_ok {c c₁ c₂ : Catalog} {decl : TypeDecl} {id : TypeId} (hc : c.WellFormed)
    (hdeclared : c.TypeDeclared decl id) (hnobase : c.base? id = none)
    (hnointerfaces : c.interfaces id = [])
    (hbase : (linkBase (Scope.ofParams decl.params (c.params id)) id decl.base).run.run c =
      (.ok (), c₁))
    (hinterfaces : (linkInterfaces (Scope.ofParams decl.params (c.params id)) id
      decl.interfaces).run.run c₁ = (.ok (), c₂)) :
    Extends (· = id) c c₂ ∧ c₂.TypeLinked decl id := by
  have hscope := hdeclared.params.fits
  obtain ⟨he₁, hlinked, hsame⟩ := linkBase_ok hc hscope hdeclared.knows hnobase hbase
  have hstart : c₁.InterfacesLinked (Scope.ofParams decl.params (c.params id)) [] id [] :=
    ⟨rfl, by rw [hsame, hnointerfaces]; rfl, fun hi => by cases hi⟩
  obtain ⟨he₂, ⟨ids, hids⟩, hsame'⟩ := linkInterfaces_ok he₁.wellFormed
    (hscope.mono he₁.preserves) (he₁.preserves.knows hdeclared.knows) hstart hinterfaces
  have he := he₁.trans he₂ fun other hother => hother ▸ hdeclared.knows
  refine ⟨he, ?_, ?_⟩
  · rw [he.params]
    exact hlinked.mono he₁.wellFormed he₂ hsame'
  · rw [he.params]
    exact ⟨ids, hids⟩

theorem linkTypes_ok {c c' : Catalog} {pairs : List (TypeDecl × TypeId)} (hc : c.WellFormed)
    (htypes : ∀ p ∈ pairs, c.TypeDeclared p.1 p.2)
    (hnone : ∀ p ∈ pairs, c.base? p.2 = none ∧ c.interfaces p.2 = [])
    (hnodup : (pairs.map Prod.snd).Nodup)
    (hrun : (linkTypes pairs).run.run c = (.ok (), c')) :
    Extends (· ∈ pairs.map Prod.snd) c c' ∧ ∀ p ∈ pairs, c'.TypeLinked p.1 p.2 := by
  induction pairs generalizing c with
  | nil =>
    cases hrun
    exact ⟨.refl hc, fun p hp => by cases hp⟩
  | cons p rest ih =>
    obtain ⟨decl, id⟩ := p
    rw [linkTypes, run_get_bind] at hrun
    obtain ⟨_, c₁, hbase, hrun⟩ := run_bind_eq_ok hrun
    obtain ⟨_, c₂, hinterfaces, hrun⟩ := run_bind_eq_ok hrun
    have hdeclared := htypes _ List.mem_cons_self
    obtain ⟨hnobase, hnointerfaces⟩ := hnone _ List.mem_cons_self
    obtain ⟨he, hfirst⟩ := linkType_ok hc hdeclared hnobase hnointerfaces hbase hinterfaces
    -- the others are still without links, as their numbers differ
    have hnodup' := List.nodup_cons.mp hnodup
    have hother : ∀ p ∈ rest, p.2 ≠ id := by
      rintro p hp rfl
      exact hnodup'.1 (List.mem_map.mpr ⟨p, hp, rfl⟩)
    obtain ⟨he', hlinks⟩ := ih he.wellFormed
      (fun p hp => (htypes p (List.mem_cons_of_mem _ hp)).mono he.wellFormed he.preserves
        (by rw [he.lookupName?, (htypes p (List.mem_cons_of_mem _ hp)).lookup]))
      (fun p hp => by
        have hp' := List.mem_cons_of_mem (decl, id) hp
        rw [he.base? (htypes p hp').knows (hother p hp),
          he.interfaces (htypes p hp').knows (hother p hp)]
        exact hnone p hp')
      hnodup'.2 hrun
    have hall : ∀ other, other ∈ ((decl, id) :: rest).map Prod.snd → c.knows other = true := by
      intro other hmem
      obtain ⟨p, hp, rfl⟩ := List.mem_map.mp hmem
      exact (htypes p hp).knows
    refine ⟨(he.mono fun other hother => ?_).trans (he'.mono fun other hother => ?_) hall,
      fun p hp => ?_⟩
    · rw [hother]
      exact List.mem_cons_self
    · exact List.mem_cons_of_mem _ hother
    · rcases List.mem_cons.mp hp with rfl | hp
      · exact hfirst.mono he.wellFormed he' (he.preserves.knows hdeclared.knows) hnodup'.1
      · exact hlinks p hp

/-- One method. -/
theorem declareMethod_ok {c c₁ : Catalog} (hc : c.WellFormed) {decl : MethodDecl}
    {params : List TypeId}
    (hrun : (resolveTexts (Scope.ofParams decl.typeParams (c.addParameters decl.typeParams).1)
      decl.params).run.run (c.addParameters decl.typeParams).2 = (.ok params, c₁)) :
    Extends (fun _ => False) c c₁ ∧
      c₁.MethodDeclared decl ⟨decl.name, (c.addParameters decl.typeParams).1, params⟩ := by
  have he₁ := Extends.addParameters hc (fun _ => False) decl.typeParams
  have hnamed := namedParams_addParameters c decl.typeParams
  have hout := outcome_resolveTexts (X := fun _ => True) he₁.wellFormed hnamed.fits decl.params
    fun _ _ _ _ => trivial
  rw [hrun] at hout
  obtain ⟨hknown, htrees⟩ := hout.ok rfl
  have he₂ := hout.grows.extends (fun _ => False)
  refine ⟨he₁.trans he₂ fun _ => False.elim, rfl, hnamed.mono he₂.wellFormed he₂.preserves, ?_,
    fun hx => hknown _ hx⟩
  rw [he₂.treeOfText? he₁.wellFormed]
  exact htrees

theorem declaresMethods_of_declareMethods {c c' : Catalog} (hc : c.WellFormed)
    {names : List String} {decls : List MethodDecl} {methods : List Method}
    (hrun : (declareMethods names decls).run.run c = (.ok methods, c')) :
    c.DeclaresMethods c' names decls methods := by
  induction decls generalizing c names methods with
  | nil =>
    cases hrun
    exact ⟨.refl hc, .nil, nofun, .nil, nofun, .nil⟩
  | cons decl rest ih =>
    rw [declareMethods] at hrun
    split at hrun
    · cases hrun
    rename_i hfree
    rw [run_modifyGet_bind] at hrun
    obtain ⟨params, c₁, hparams, hrun⟩ := run_bind_eq_ok hrun
    obtain ⟨others, c₂, hrest, hpure⟩ := run_bind_eq_ok hrun
    cases hpure
    obtain ⟨he, hmethod⟩ := declareMethod_ok hc hparams
    exact .cons (by simpa using hfree) he hmethod (fun p hp => knows_addParameters hp)
      (ih he.wellFormed hrest)

end Load

/-! ## 3. Loaded schemas -/

/-- What a schema has come to in a catalogue with methods. The order of the types
does not enter into it, and that of the methods is the order of `ms`. -/
structure Loaded (s : Schema) (c : Catalog) (ms : List Method) : Prop where
  wellFormed : c.WellFormed
  typeNames : (s.types.map TypeDecl.name).Nodup
  types : ∀ {decl}, decl ∈ s.types → ∃ id, c.TypeDeclared decl id ∧ c.TypeLinked decl id
  /-- There are no other types than those declared, their parameters and applications. -/
  declared : ∀ {id n}, c.node? id = some n → n.isApplication = false → n.isParameter = false →
    ∃ decl ∈ s.types, c.TypeDeclared decl id
  linkless : ∀ {id n}, c.node? id = some n → n.isApplication = true →
    n.base = none ∧ n.interfaces = []
  methodNames : (s.methods.map MethodDecl.name).Nodup
  methods : List.Forall₂ c.MethodDeclared s.methods ms
  fresh : ∀ m ∈ ms, ∀ p ∈ m.typeParams, ∀ d, p ∉ c.params d
  apart : ms.Pairwise fun m m' => m.typeParams.Disjoint m'.typeParams

namespace Loaded

open Catalog

/-- Every method was declared. -/
theorem exists_decl {s : Schema} {c : Catalog} {ms : List Method} (h : Loaded s c ms) {m : Method}
    (hm : m ∈ ms) : ∃ decl ∈ s.methods, c.MethodDeclared decl m := by
  rw [← List.map_snd_zip (Nat.le_of_eq h.methods.length_eq.symm)] at hm
  obtain ⟨p, hp, rfl⟩ := List.mem_map.mp hm
  exact ⟨p.1, (List.of_mem_zip hp).1, (List.forall₂_iff_zip.mp h.methods).2 hp⟩

theorem knows_of_mem {s : Schema} {c : Catalog} {ms : List Method} (h : Loaded s c ms) {m : Method}
    (hm : m ∈ ms) : ∀ x ∈ m.typeParams ++ m.params, c.knows x = true := by
  obtain ⟨decl, -, hdeclared⟩ := h.exists_decl hm
  intro x hx
  rcases List.mem_append.mp hx with hx | hx
  · exact knows_of_isParameter (hdeclared.typeParams.isParameter hx)
  · exact hdeclared.knows hx

/-- Distinct declarations have come to distinct types. -/
theorem nodup_of_forall₂ {c : Catalog} (hc : c.WellFormed) {decls : List TypeDecl}
    {ids : List TypeId} (h : List.Forall₂ c.TypeDeclared decls ids)
    (hnames : (decls.map TypeDecl.name).Nodup) : ids.Nodup := by
  have heq : List.Forall₂ (· = ·) (ids.map c.name) (decls.map TypeDecl.name) := by
    rw [List.forall₂_map_left_iff, List.forall₂_map_right_iff]
    exact h.flip.imp fun _ _ hdeclared => hdeclared.name_eq hc
  rw [List.forall₂_eq_eq_eq] at heq
  exact .of_map c.name (heq ▸ hnames)

theorem of_run {s : Schema} {c : Catalog} {ms : List Method}
    (hrun : (Load.schema s).run.run .empty = (.ok ms, c)) : Loaded s c ms := by
  obtain ⟨ids, c₁, hdeclare, hrun⟩ := Load.run_bind_eq_ok hrun
  obtain ⟨_, c₂, hlink, hmethods⟩ := Load.run_bind_eq_ok hrun
  have hd := Load.declares_of_declareTypes empty_wellFormed hdeclare
  have hlength := hd.types.length_eq
  have htypes : ∀ p ∈ s.types.zip ids, c₁.TypeDeclared p.1 p.2 := fun p hp =>
    (List.forall₂_iff_zip.mp hd.types).2 hp
  have hadded : ∀ {x n}, c₁.node? x = some n → n.base = none ∧ n.interfaces = [] ∧
      n.isApplication = false ∧ (n.isParameter = true ∨ x ∈ ids) := by
    intro x n hnode
    exact (hd.added hnode).resolve_left (by simp [empty, node?])
  have hsnd : (s.types.zip ids).map Prod.snd = ids := List.map_snd_zip (Nat.le_of_eq hlength.symm)
  have hfst : (s.types.zip ids).map Prod.fst = s.types := List.map_fst_zip (Nat.le_of_eq hlength)
  obtain ⟨he, hlinks⟩ := Load.linkTypes_ok hd.wellFormed htypes
    (fun p hp => by
      obtain ⟨n, hnode⟩ := node?_of_knows (htypes p hp).knows
      obtain ⟨hbase, hinterfaces, -⟩ := hadded hnode
      simp [base?, interfaces, hnode, hbase, hinterfaces])
    (by rw [hsnd]; exact nodup_of_forall₂ hd.wellFormed hd.types hd.names) hlink
  have hm := Load.declaresMethods_of_declareMethods he.wellFormed hmethods
  -- the first phase against all that comes after it
  have hlater : Extends (· ∈ (s.types.zip ids).map Prod.snd) c₁ c := by
    refine he.trans (hm.extended.mono fun _ => False.elim) fun id hid => ?_
    obtain ⟨p, hp, rfl⟩ := List.mem_map.mp hid
    exact (htypes p hp).knows
  have hdeclared : ∀ p ∈ s.types.zip ids, c.TypeDeclared p.1 p.2 := fun p hp =>
    (htypes p hp).mono hlater.wellFormed hlater.preserves
      (by rw [hlater.lookupName?, (htypes p hp).lookup])
  refine ⟨hlater.wellFormed, hd.names, fun {decl} hdecl => ?_, fun {id n} hnode happ hparam => ?_,
    fun {id n} hnode happ => ?_, hm.names, hm.methods, fun m hmem p hp d hmem' => ?_, hm.apart⟩
  · rw [← hfst] at hdecl
    obtain ⟨p, hp, rfl⟩ := List.mem_map.mp hdecl
    exact ⟨p.2, hdeclared p hp, (hlinks p hp).mono he.wellFormed hm.extended
      (he.preserves.knows (htypes p hp).knows) id⟩
  · rcases hlater.node?_cases hnode with ⟨n₁, hnode₁, halike⟩ | ⟨-, -, hkind⟩
    · obtain ⟨-, -, -, hkind⟩ := hadded hnode₁
      rw [← halike.sameShape.isParameter, hparam, ← hsnd] at hkind
      obtain ⟨p, hp, rfl⟩ := List.mem_map.mp (hkind.resolve_left Bool.false_ne_true)
      exact ⟨p.1, hfst ▸ List.mem_map_of_mem hp, hdeclared p hp⟩
    · simp [happ, hparam] at hkind
  · rcases hlater.node?_cases hnode with ⟨n₁, hnode₁, halike⟩ | ⟨hbase, hinterfaces, -⟩
    · obtain ⟨-, -, hnot, -⟩ := hadded hnode₁
      rw [← halike.sameShape.isApplication, happ] at hnot
      cases hnot
    · exact ⟨hbase, hinterfaces⟩
  · have hnot := hm.fresh m hmem p hp
    rw [hm.extended.params] at hmem'
    have hparam := he.wellFormed.isParameter_of_mem_params (form?_of_mem_params hmem') hmem'
    rw [knows_of_isParameter hparam] at hnot
    cases hnot

end Loaded

namespace LibraryDraft

theorem ofSchema_eq_ok_iff {s : Schema} {d : LibraryDraft} :
    ofSchema s = .ok d ↔
      (Load.schema s).run.run .empty = (.ok d.methods, d.catalog) ∧ d.options = s.options := by
  rw [ofSchema]
  rcases (Load.schema s).run.run .empty with ⟨e | ms, c⟩
  · exact ⟨nofun, nofun⟩
  · constructor
    · rintro ⟨⟩
      exact ⟨rfl, rfl⟩
    · rintro ⟨⟨⟩, hoptions⟩
      rw [← hoptions]

/-- A draft is what its schema has come to. -/
theorem loaded {s : Schema} {d : LibraryDraft} (h : ofSchema s = .ok d) :
    Loaded s d.catalog d.methods :=
  .of_run (ofSchema_eq_ok_iff.mp h).1

end LibraryDraft

end Generics

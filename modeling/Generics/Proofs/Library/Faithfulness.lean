/-
Generics.Proofs.Library.Faithfulness — resolving finds what an expression denotes.

An expression that was read can be resolved exactly if its names can stand where they do and
there is room for the applications that are missing (`resolve_faithful`). What is entered on
the way is counted as a set of trees: after a success the catalogue has all that was
missing, and a refusal for want of room comes with a missing tree that is not yet entered.

An expression that was read nests no deeper than an application may. So of the errors of the
catalogue only three can come up: a name that is no open definition, one with another
number of parameters, and too many applications (`fault_of_resolve`).
-/
import Generics.Proofs.Hierarchy.Closure
import Generics.Proofs.Library.Denotation
import Generics.Proofs.Library.Resolving
import Generics.Proofs.TypeExpr.Reading

namespace Generics

namespace Catalog

/-! ## 1. What is entered -/

/-- The applications in an expression that the catalogue does not have. -/
def missing (c : Catalog) (scope : Scope) (e : TypeExpr) : Set TypeTree :=
  { u | ∃ t, c.treeOf? scope e = some t ∧ c.AppliedPart t u ∧ ∀ id, c.tree id ≠ u }

section

variable {X : TypeTree → Prop} {c c' : Catalog} {scope : Scope} {e : TypeExpr} {t u : TypeTree}

theorem Grows.appliedTrees_subset (h : Grows X c c') : c.appliedTrees ⊆ c'.appliedTrees := by
  rintro t ⟨id, d, args, hform, rfl⟩
  exact ⟨id, d, args, h.preserves.form? hform, h.preserves.tree (knows_of_form? hform)⟩

theorem not_mem_missing (hu : u ∈ c.appliedTrees) : u ∉ c.missing scope e := by
  obtain ⟨id, -, -, -, htree⟩ := hu
  rintro ⟨_, -, -, hnew⟩
  exact hnew id htree

/-- Only what is missing is entered. -/
theorem WellFormed.subset_missing (hc : c.WellFormed) (h : Grows (c.AppliedPart t) c c')
    (ht : c.treeOf? scope e = some t) : c'.appliedTrees ⊆ c.appliedTrees ∪ c.missing scope e := by
  rintro u ⟨id, d, args, hform, rfl⟩
  obtain ⟨node, hnode, hnform⟩ := form?_eq_some.mp hform
  rcases h.added hnode with hold | ⟨-, -, -, hpart⟩
  · refine .inl ⟨id, d, args, form?_eq_some.mpr ⟨node, hold, hnform⟩, ?_⟩
    exact (h.preserves.tree (knows_of_node? hold)).symm
  · by_cases hpresent : ∃ x, c.tree x = c'.tree id
    · exact .inl (hc.mem_appliedTrees_iff.mpr ⟨hpart.2, hpresent⟩)
    · exact .inr ⟨t, ht, hpart, fun x hx => hpresent ⟨x, hx⟩⟩

/-- Once the type with the tree is there, nothing is missing. -/
theorem WellFormed.appliedTrees_of_tree (hc : c.WellFormed) {id : TypeId}
    (h : Grows (c.AppliedPart (c'.tree id)) c c') (ht : c.treeOf? scope e = some (c'.tree id)) :
    c'.appliedTrees = c.appliedTrees ∪ c.missing scope e := by
  refine Set.Subset.antisymm (hc.subset_missing h ht) (Set.union_subset h.appliedTrees_subset ?_)
  rintro u ⟨t, ht', hpart, -⟩
  cases ht.symm.trans ht'
  refine h.wellFormed.mem_appliedTrees_iff.mpr ⟨?_, ?_⟩
  · exact (h.appliedPart_iff.mpr hpart).2
  · exact h.wellFormed.exists_tree_of_part hpart.1 ⟨id, rfl⟩

theorem WellFormed.encard_union_missing (hc : c.WellFormed) :
    (c.appliedTrees ∪ c.missing scope e).encard =
      c.applications.size + (c.missing scope e).encard := by
  rw [Set.encard_union_eq (Set.disjoint_left.mpr fun _ hu => not_mem_missing hu),
    hc.encard_appliedTrees]

/-- If there is no room for a missing application, more is missing than there is room for. -/
theorem WellFormed.exceeds_of_refused (hc : c.WellFormed) (h : Grows (c.AppliedPart t) c c')
    (ht : c.treeOf? scope e = some t) (hu : c.AppliedPart t u) (hnew : ∀ id, c'.tree id ≠ u)
    (hfull : Limits.applications ≤ c'.applications.size) :
    (Limits.applications : ℕ∞) < c.applications.size + (c.missing scope e).encard := by
  have hout : u ∉ c'.appliedTrees := by
    rintro ⟨id, -, -, -, htree⟩
    exact hnew id htree
  have hmissing : u ∈ c.missing scope e := by
    refine ⟨t, ht, hu, fun id hid => hout (h.appliedTrees_subset ?_)⟩
    exact hc.mem_appliedTrees_iff.mpr ⟨hu.2, id, hid⟩
  have hsubset : insert u c'.appliedTrees ⊆ c.appliedTrees ∪ c.missing scope e :=
    Set.insert_subset (.inr hmissing) (hc.subset_missing h ht)
  have hcard := Set.encard_le_encard hsubset
  rw [Set.encard_insert_of_notMem hout, h.wellFormed.encard_appliedTrees,
    hc.encard_union_missing] at hcard
  calc (Limits.applications : ℕ∞)
    _ < Limits.applications + 1 := by exact_mod_cast Nat.lt_succ_self _
    _ ≤ c'.applications.size + 1 := by gcongr
    _ ≤ c.applications.size + (c.missing scope e).encard := hcard

end

end Catalog

namespace Load

open Catalog

/-! ## 2. Runs of resolving -/

/-- What resolving an expression can do. -/
inductive Resolved (c : Catalog) (scope : Scope) (source : String) :
    TypeExpr → Except LibraryError TypeId × Catalog → Prop
  | parameter {name : String} {param : TypeId} (hparam : scope.lookup name = some param) :
      Resolved c scope source (.mk name []) (.ok param, c)
  | parameterWithArguments {name : String} {args : List TypeExpr} {param : TypeId}
      (hparam : scope.lookup name = some param) (hne : args ≠ []) :
      Resolved c scope source (.mk name args) (.error (.parameterWithArguments name), c)
  | unknown {name : String} {args : List TypeExpr} (hscope : scope.lookup name = none)
      (hname : c.lookupName? name = none) :
      Resolved c scope source (.mk name args) (.error (.unknownType name source), c)
  | declaration {name : String} {id : TypeId} (hscope : scope.lookup name = none)
      (hname : c.lookupName? name = some id) : Resolved c scope source (.mk name []) (.ok id, c)
  | argument {name : String} {args : List TypeExpr} {d : TypeId} {err : LibraryError}
      {c' : Catalog} (hscope : scope.lookup name = none) (hname : c.lookupName? name = some d)
      (hne : args ≠ []) (hargs : (resolveAll scope source args).run.run c = (.error err, c')) :
      Resolved c scope source (.mk name args) (.error err, c')
  | application {name : String} {args : List TypeExpr} {d : TypeId} {ids : List TypeId}
      {c₁ : Catalog} {result : Except LibraryError TypeId × Catalog}
      (hscope : scope.lookup name = none) (hname : c.lookupName? name = some d) (hne : args ≠ [])
      (hargs : (resolveAll scope source args).run.run c = (.ok ids, c₁))
      (happly : (ofBuild (instantiate d ids)).run.run c₁ = result) :
      Resolved c scope source (.mk name args) result

/-- What resolving several expressions can do. -/
inductive ResolvedAll (c : Catalog) (scope : Scope) (source : String) :
    List TypeExpr → Except LibraryError (List TypeId) × Catalog → Prop
  | nil : ResolvedAll c scope source [] (.ok [], c)
  | first {e : TypeExpr} {rest : List TypeExpr} {err : LibraryError} {c' : Catalog}
      (hfirst : (resolve scope source e).run.run c = (.error err, c')) :
      ResolvedAll c scope source (e :: rest) (.error err, c')
  | later {e : TypeExpr} {rest : List TypeExpr} {id : TypeId} {err : LibraryError}
      {c₁ c' : Catalog} (hfirst : (resolve scope source e).run.run c = (.ok id, c₁))
      (hrest : (resolveAll scope source rest).run.run c₁ = (.error err, c')) :
      ResolvedAll c scope source (e :: rest) (.error err, c')
  | cons {e : TypeExpr} {rest : List TypeExpr} {id : TypeId} {ids : List TypeId}
      {c₁ c' : Catalog} (hfirst : (resolve scope source e).run.run c = (.ok id, c₁))
      (hrest : (resolveAll scope source rest).run.run c₁ = (.ok ids, c')) :
      ResolvedAll c scope source (e :: rest) (.ok (id :: ids), c')

theorem resolved_run (c : Catalog) (scope : Scope) (source : String) (e : TypeExpr) :
    Resolved c scope source e ((resolve scope source e).run.run c) := by
  obtain ⟨name, args⟩ := e
  rw [resolve]
  cases hparam : scope.lookup name with
  | some param =>
    cases args with
    | nil => exact .parameter hparam
    | cons a rest => exact .parameterWithArguments hparam (List.cons_ne_nil a rest)
  | none =>
    dsimp only
    rw [run_get_bind]
    cases hname : c.lookupName? name with
    | none => exact .unknown hparam hname
    | some d =>
      cases args with
      | nil => exact .declaration hparam hname
      | cons a rest =>
        have hne := List.cons_ne_nil a rest
        simp only [List.isEmpty_cons, Bool.false_eq_true, if_false]
        rcases hargs : (resolveAll scope source (a :: rest)).run.run c with ⟨err | ids, c₁⟩
        · rw [run_bind_error hargs]
          exact .argument hparam hname hne hargs
        · rw [run_bind_ok hargs]
          exact .application hparam hname hne hargs rfl

theorem resolvedAll_run (c : Catalog) (scope : Scope) (source : String) (es : List TypeExpr) :
    ResolvedAll c scope source es ((resolveAll scope source es).run.run c) := by
  cases es with
  | nil => exact .nil
  | cons e rest =>
    rw [resolveAll]
    rcases hfirst : (resolve scope source e).run.run c with ⟨err | id, c₁⟩
    · rw [run_bind_error hfirst]
      exact .first hfirst
    · rw [run_bind_ok hfirst]
      rcases hrest : (resolveAll scope source rest).run.run c₁ with ⟨err | ids, c₂⟩
      · rw [run_bind_error hrest]
        exact .later hfirst hrest
      · rw [run_bind_ok hrest]
        exact .cons hfirst hrest

/-! ## 3. What resolving reports -/

/-- Why a name cannot stand before these arguments, as it is reported. -/
inductive NameFault (c : Catalog) (scope : Scope) (source name : String) (args : List TypeExpr) :
    LibraryError → Prop
  | unknown (hscope : scope.lookup name = none) (hname : c.lookupName? name = none) :
      NameFault c scope source name args (.unknownType name source)
  | parameter {param : TypeId} (hparam : scope.lookup name = some param) (hne : args ≠ []) :
      NameFault c scope source name args (.parameterWithArguments name)
  | notDefinition {id : TypeId} (hscope : scope.lookup name = none)
      (hname : c.lookupName? name = some id) (hne : args ≠ []) (h : c.isDefinition id = false) :
      NameFault c scope source name args (.catalog (.notDefinition (c.display id)))
  | arity {id : TypeId} {params : List TypeId} (hscope : scope.lookup name = none)
      (hname : c.lookupName? name = some id) (hne : args ≠ [])
      (hform : c.form? id = some (.definition params)) (h : args.length ≠ params.length) :
      NameFault c scope source name args
        (.catalog (.arityMismatch (c.display id) params.length args.length))

/-- Why an expression is not resolved: one of its names cannot stand where it does, or there
are too many applications. -/
def Fault (c : Catalog) (scope : Scope) (source : String) (e : TypeExpr) (err : LibraryError) :
    Prop :=
  (∃ name args, TypeExpr.Part (.mk name args) e ∧ NameFault c scope source name args err) ∨
    err = .catalog .tooManyApplications

section

variable {X : TypeTree → Prop} {c c₁ c' : Catalog} {scope : Scope} {source name : String}
  {e : TypeExpr} {args : List TypeExpr} {err : LibraryError} {d : TypeId} {ids : List TypeId}

/-- Growth does not change what is said about a declaration. -/
theorem display_of_grows (hc : c.WellFormed) (hg : Grows X c c₁)
    (hname : c.lookupName? name = some d) : c₁.display d = c.display d := by
  obtain ⟨node, hnode, -, -, hnot⟩ := hc.declared hname
  rw [display, display, hnode, hg.kept hnode]
  cases hform : node.form with
  | application definition args =>
    rw [isApplication_iff.mpr ⟨definition, args, hform⟩] at hnot
    cases hnot
  | _ => simp only [hform]

theorem NameFault.of_grows (hc : c.WellFormed) (hg : Grows X c c₁)
    (h : NameFault c₁ scope source name args err) : NameFault c scope source name args err := by
  have hlookup : c₁.lookupName? name = c.lookupName? name := by
    rw [lookupName?, lookupName?, hg.declared]
  cases h with
  | unknown hscope hname => exact .unknown hscope (hlookup ▸ hname)
  | parameter hparam hne => exact .parameter hparam hne
  | @notDefinition id hscope hname hne hnot =>
    rw [hlookup] at hname
    rw [display_of_grows hc hg hname]
    refine .notDefinition hscope hname hne (Bool.eq_false_iff.mpr fun hdef => ?_)
    obtain ⟨params, hform⟩ := isDefinition_iff.mp hdef
    rw [isDefinition_iff.mpr ⟨params, hg.preserves.form? hform⟩] at hnot
    cases hnot
  | arity hscope hname hne hform hlength =>
    rw [hlookup] at hname
    rw [display_of_grows hc hg hname]
    rw [hg.preserves.form?_eq (hc.knows_of_lookupName? hname)] at hform
    exact .arity hscope hname hne hform hlength

theorem Fault.of_grows (hc : c.WellFormed) (hg : Grows X c c₁) (h : Fault c₁ scope source e err) :
    Fault c scope source e err := by
  rcases h with ⟨name, args, hpart, hfault⟩ | heq
  · exact .inl ⟨name, args, hpart, hfault.of_grows hc hg⟩
  · exact .inr heq

theorem Fault.of_arg {a : TypeExpr} (ha : a ∈ args) (h : Fault c scope source a err) :
    Fault c scope source (.mk name args) err := by
  rcases h with ⟨n, as, hpart, hfault⟩ | heq
  · exact .inl ⟨n, as, .arg ha hpart, hfault⟩
  · exact .inr heq

/-- Of the refusals of the catalogue three can come up. -/
theorem Fault.refusal_cases {refusal : CatalogError}
    (h : Fault c scope source e (.catalog refusal)) :
    (∃ shown, refusal = .notDefinition shown) ∨
      (∃ shown expected actual, refusal = .arityMismatch shown expected actual) ∨
      refusal = .tooManyApplications := by
  rcases h with ⟨name, args, -, hfault⟩ | heq
  · cases hfault with
    | notDefinition => exact .inl ⟨_, rfl⟩
    | arity => exact .inr (.inl ⟨_, _, _, rfl⟩)
  · exact .inr (.inr (LibraryError.catalog.inj heq))

/-- Of the tests that an application has to pass, those for unknown types and for its depth
cannot fail here. -/
theorem fault_of_instantiate (hc : c.WellFormed) (hscope : scope.lookup name = none)
    (hname : c.lookupName? name = some d) (hne : args ≠ []) (hlength : ids.length = args.length)
    (hids : ∀ id ∈ ids, c.knows id = true) (hdepth : c.applicationDepth ids ≤ Limits.nesting)
    (h : (ofBuild (instantiate d ids)).run.run c = (.error err, c')) :
    NameFault c scope source name args err ∨ err = .catalog .tooManyApplications := by
  rw [run_ofBuild] at h
  have hrun := instantiated_run c d ids
  generalize (instantiate d ids).run.run c = result at hrun h
  cases hrun with
  | unknown hunknown =>
    rw [hc.knows_of_lookupName? hname] at hunknown
    cases hunknown
  | notDefinition _ hnot =>
    cases h
    exact .inl (.notDefinition hscope hname hne hnot)
  | arity hform hcount =>
    cases h
    rw [hlength] at hcount ⊢
    exact .inl (.arity hscope hname hne hform hcount)
  | own => cases h
  | unknownArgument _ _ _ hfind =>
    have hunknown := List.find?_some hfind
    rw [hids _ (List.mem_of_find?_eq_some hfind)] at hunknown
    cases hunknown
  | found => cases h
  | tooDeep _ _ _ _ _ hdeep => exact absurd hdepth (Nat.not_le.mpr hdeep)
  | tooMany =>
    cases h
    exact .inr rfl
  | entered => cases h

/-- What is known of the types of several expressions, once they are resolved. -/
theorem resolveAll_ok (hc : c.WellFormed) (hscope : scope.Fits c)
    (h : (resolveAll scope source args).run.run c = (.ok ids, c₁)) :
    Grows (fun _ => True) c c₁ ∧ (∀ id ∈ ids, c₁.knows id = true) ∧ ids.length = args.length ∧
      c₁.applicationDepth ids ≤ TypeExpr.nestingAll args + 1 := by
  have houtcome := outcome_resolveAll (X := fun _ => True) hc hscope source args
    fun _ _ => trivial
  rw [h] at houtcome
  obtain ⟨hids, htrees⟩ := houtcome.ok rfl
  have hg := houtcome.grows
  have hmap := treesOf?_eq_some_iff.mp htrees
  have hdepth := treesDepth_le_nestingAll hmap fun a _ t ht => hc.treeDepth_le_nesting ht
  refine ⟨hg, hids, by simpa using (congrArg List.length hmap).symm, ?_⟩
  rw [← treesDepth_congr fun t _ => treeDepth_congr hg.params t,
    treesDepth_map_tree fun id _ => hg.wellFormed.depth_eq_treeDepth id] at hdepth
  exact Nat.add_le_add_right hdepth 1

theorem fault_of_resolveAll (hc : c.WellFormed) (hscope : scope.Fits c)
    (hargs : ∀ a ∈ args, ∀ {c c' err}, c.WellFormed → scope.Fits c →
      (resolve scope source a).run.run c = (.error err, c') → Fault c scope source a err)
    (h : (resolveAll scope source args).run.run c = (.error err, c')) :
    ∃ a ∈ args, Fault c scope source a err := by
  induction args generalizing c with
  | nil => cases h
  | cons a rest ih =>
    have hrun := resolvedAll_run c scope source (a :: rest)
    rw [h] at hrun
    cases hrun with
    | first hfirst =>
      exact ⟨a, List.mem_cons_self, hargs a List.mem_cons_self hc hscope hfirst⟩
    | later hfirst hrest =>
      -- a fault in the grown catalogue is one in the first, since names stand for the same there
      have houtcome := outcome_resolve (X := fun _ => True) hc hscope source a fun _ _ => trivial
      rw [hfirst] at houtcome
      have hg := houtcome.grows
      obtain ⟨b, hb, hfault⟩ := ih hg.wellFormed (hscope.mono hg.preserves)
        (fun b hb => hargs b (List.mem_cons_of_mem _ hb)) hrest
      exact ⟨b, List.mem_cons_of_mem _ hb, hfault.of_grows hc hg⟩

/-- Whatever is reported has its reason in a name of the expression, or in the number of
applications. -/
theorem fault_of_resolve (hc : c.WellFormed) (hscope : scope.Fits c)
    (hnesting : e.nesting ≤ Limits.nesting)
    (h : (resolve scope source e).run.run c = (.error err, c')) : Fault c scope source e err := by
  induction e generalizing c c' err with
  | mk name args ih =>
    have hrun := resolved_run c scope source (.mk name args)
    rw [h] at hrun
    cases hrun with
    | parameterWithArguments hparam hne =>
      exact .inl ⟨name, args, .refl _, .parameter hparam hne⟩
    | unknown hnone hname => exact .inl ⟨name, args, .refl _, .unknown hnone hname⟩
    | argument hnone hname hne hargs =>
      rw [TypeExpr.nesting_mk hne] at hnesting
      have hbelow := TypeExpr.nestingAll_le_iff.mp (Nat.le_of_succ_le hnesting)
      obtain ⟨a, ha, hfault⟩ := fault_of_resolveAll hc hscope
        (fun a ha _ _ _ hc hscope => ih a ha hc hscope (hbelow a ha)) hargs
      exact hfault.of_arg ha
    | application hnone hname hne hargs happly =>
      obtain ⟨hg, hids, hlength, hdepth⟩ := resolveAll_ok hc hscope hargs
      -- the brackets around the arguments are the level that the application adds to them
      rw [← TypeExpr.nesting_mk hne] at hdepth
      rw [lookupName?, ← hg.declared, ← lookupName?] at hname
      rcases fault_of_instantiate hg.wellFormed hnone hname hne hlength hids
        (Nat.le_trans hdepth hnesting) happly with hfault | heq
      · exact .inl ⟨name, args, .refl _, hfault.of_grows hc hg⟩
      · exact .inr heq

end

/-! ## 4. Resolving is faithful -/

section

variable {c : Catalog} {scope : Scope} {source : String} {args : List TypeExpr}

theorem reachable_resolveAll (hc : c.Reachable)
    (hargs : ∀ a ∈ args, ∀ {c}, c.Reachable → ((resolve scope source a).run.run c).2.Reachable) :
    ((resolveAll scope source args).run.run c).2.Reachable := by
  induction args generalizing c with
  | nil => exact hc
  | cons a rest ih =>
    have hfirst := hargs a List.mem_cons_self hc
    have hrest : ∀ {c}, c.Reachable → ((resolveAll scope source rest).run.run c).2.Reachable :=
      fun hc => ih hc fun b hb => hargs b (List.mem_cons_of_mem _ hb)
    have hrun := resolvedAll_run c scope source (a :: rest)
    generalize (resolveAll scope source (a :: rest)).run.run c = result at hrun ⊢
    cases hrun with
    | first hfirst' => rwa [hfirst'] at hfirst
    | later hfirst' hrest' =>
      rw [hfirst'] at hfirst
      have hlast := hrest hfirst
      rwa [hrest'] at hlast
    | cons hfirst' hrest' =>
      rw [hfirst'] at hfirst
      have hlast := hrest hfirst
      rwa [hrest'] at hlast

/-- Resolving is a run of applications, finished or not. -/
theorem reachable_resolve (hc : c.Reachable) (scope : Scope) (source : String) (e : TypeExpr) :
    ((resolve scope source e).run.run c).2.Reachable := by
  induction e generalizing c with
  | mk name args ih =>
    have hall := reachable_resolveAll hc fun a ha {c} hc => ih a ha hc
    have hrun := resolved_run c scope source (.mk name args)
    generalize (resolve scope source (.mk name args)).run.run c = result at hrun ⊢
    cases hrun with
    | argument _ _ _ hargs => rwa [hargs] at hall
    | application _ _ _ hargs happly =>
      rw [hargs] at hall
      rw [← happly, run_ofBuild]
      exact hall.perform (.instantiate _ _)
    | _ => exact hc

end

section

variable {c c' : Catalog} {scope : Scope} {source : String} {e : TypeExpr} {t : TypeTree}
  {id : TypeId} {result : Except LibraryError TypeId}

/-- If the expression has a tree, what is entered are parts of it. -/
theorem outcome_of_tree (hc : c.WellFormed) (hscope : scope.Fits c)
    (ht : c.treeOf? scope e = some t)
    (h : (resolve scope source e).run.run c = (result, c')) :
    Grows (c.AppliedPart t) c c' ∧
      ∀ err, result = .error err → ∃ refusal, Refused (c.AppliedPart t) c' refusal := by
  have houtcome := outcome_resolve (X := c.AppliedPart t) hc hscope source e fun u hu => hu t ht
  rw [h] at houtcome
  refine ⟨houtcome.grows, fun err herr => ?_⟩
  rcases houtcome.error herr with hnone | hrefused
  · rw [ht] at hnone
    cases hnone
  · exact hrefused

theorem tree_of_resolve_ok (hc : c.WellFormed) (hscope : scope.Fits c)
    (h : (resolve scope source e).run.run c = (.ok id, c')) :
    c.treeOf? scope e = some (c'.tree id) := by
  have houtcome := outcome_resolve (X := fun _ => True) hc hscope source e fun _ _ => trivial
  rw [h] at houtcome
  exact (houtcome.ok rfl).2

/-- What was resolved could be, and there was room for it. -/
theorem fits_of_resolve_ok (hc : c.WellFormed) (hscope : scope.Fits c)
    (h : (resolve scope source e).run.run c = (.ok id, c')) :
    c.Resolvable scope e ∧
      c.applications.size + (c.missing scope e).encard ≤ Limits.applications := by
  have htree := tree_of_resolve_ok hc hscope h
  obtain ⟨hg, -⟩ := outcome_of_tree hc hscope htree h
  refine ⟨resolvable_iff.mpr ⟨_, htree⟩, ?_⟩
  rw [← hc.encard_union_missing, ← hc.appliedTrees_of_tree hg htree,
    hg.wellFormed.encard_appliedTrees]
  exact_mod_cast hg.wellFormed.room

/-- What can be resolved is resolved, if there is room for it. -/
theorem resolve_ok_of_fits (hc : c.WellFormed) (hscope : scope.Fits c)
    (hnesting : e.nesting ≤ Limits.nesting) (hresolvable : c.Resolvable scope e)
    (hroom : c.applications.size + (c.missing scope e).encard ≤ Limits.applications)
    (h : (resolve scope source e).run.run c = (result, c')) : ∃ id, result = .ok id := by
  obtain ⟨t, ht⟩ := resolvable_iff.mp hresolvable
  obtain ⟨hg, herror⟩ := outcome_of_tree hc hscope ht h
  cases result with
  | ok id => exact ⟨id, rfl⟩
  | error err =>
    obtain ⟨refusal, hrefused⟩ := herror err rfl
    cases hrefused with
    | @tooDeep _ u hu hdeep =>
      rw [treeDepth_congr hg.params] at hdeep
      have hpart := treeDepth_le_of_part (c := c) hu.1
      have htree := hc.treeDepth_le_nesting ht
      omega
    | tooMany hu hnew hfull =>
      exact absurd hroom (not_le.mpr (hc.exceeds_of_refused hg ht hu hnew hfull))

/-- What is found is what the expression denotes. -/
theorem denotes_iff_of_resolve_ok (hc : c.WellFormed) (hscope : scope.Fits c)
    (h : (resolve scope source e).run.run c = (.ok id, c')) (other : TypeId) :
    c'.Denotes scope e other ↔ other = id := by
  have htree := tree_of_resolve_ok hc hscope h
  obtain ⟨hg, -⟩ := outcome_of_tree hc hscope htree h
  rw [hg.wellFormed.denotes_iff (hscope.mono hg.preserves),
    treeOf?_congr hc hg.preserves hg.declared, htree, Option.some.injEq]
  constructor
  · intro heq
    exact (hg.wellFormed.tree_injective heq).symm
  · rintro rfl
    rfl

end

/-- Resolving an expression that was read is faithful. It succeeds exactly if all names of the
expression can stand where they do and there is room for the applications that are missing.
Then it finds the type that the expression denotes, which is one type only, and enters what
was missing. It never meets a limit of depth or an unknown type. Whether it succeeds or not,
applications were appended and nothing else has changed. -/
theorem resolve_faithful {c c' : Catalog} (hc : c.Reachable) {scope : Scope}
    (hscope : scope.Fits c) {text : String} {e : TypeExpr} (hread : TypeExpr.read text = .ok e)
    {source : String} {result : Except LibraryError TypeId}
    (hrun : (resolve scope source e).run.run c = (result, c')) :
    ((∃ id, result = .ok id) ↔ c.Resolvable scope e ∧
      c.applications.size + (c.missing scope e).encard ≤ Limits.applications) ∧
    (∀ id, result = .ok id → (∀ other, c'.Denotes scope e other ↔ other = id) ∧
      c'.appliedTrees = c.appliedTrees ∪ c.missing scope e) ∧
    (∀ name, result ≠ .error (.catalog (.nestingTooDeep name))) ∧
    (∀ id, result ≠ .error (.catalog (.unknownType id))) ∧
    c'.Reachable ∧ c.AppendsApplications c' := by
  have hwf := hc.wellFormed
  obtain ⟨-, hnesting, -⟩ := TypeExpr.spells_of_read hread
  have houtcome := outcome_resolve (X := fun _ => True) hwf hscope source e fun _ _ => trivial
  have hreachable := reachable_resolve hc scope source e
  rw [hrun] at houtcome hreachable
  refine ⟨⟨?_, ?_⟩, ?_, ?_, ?_, hreachable, houtcome.grows.appends hwf⟩
  · rintro ⟨id, rfl⟩
    exact fits_of_resolve_ok hwf hscope hrun
  · rintro ⟨hresolvable, hroom⟩
    exact resolve_ok_of_fits hwf hscope hnesting hresolvable hroom hrun
  · rintro id rfl
    have htree := tree_of_resolve_ok hwf hscope hrun
    obtain ⟨hg, -⟩ := outcome_of_tree hwf hscope htree hrun
    exact ⟨denotes_iff_of_resolve_ok hwf hscope hrun, hwf.appliedTrees_of_tree hg htree⟩
  · rintro name rfl
    rcases (fault_of_resolve hwf hscope hnesting hrun).refusal_cases with
      ⟨_, heq⟩ | ⟨_, _, _, heq⟩ | heq <;> cases heq
  · rintro id rfl
    rcases (fault_of_resolve hwf hscope hnesting hrun).refusal_cases with
      ⟨_, heq⟩ | ⟨_, _, _, heq⟩ | heq <;> cases heq

/-- `U` of `Derived<U>` and `T` of `Box<T>`. -/
def boxesScope : Scope := [("U", ⟨3⟩), ("T", ⟨1⟩)]

/-- `boxes` with `Box<Box<U>>`. -/
def boxesNested : Catalog :=
  (boxes.addApplication ⟨0⟩ ⟨"Box", .classType, .definition [⟨1⟩], 0, none, []⟩ [⟨4⟩]).2

/-- For `Box<Box<U>>` one application is entered behind the others. `Box<T>` is `Box` itself, and
for it nothing is. -/
theorem resolve_faithful_boxes :
    (boxes.Reachable ∧ boxesScope.Fits boxes ∧
      TypeExpr.read "Box<Box<U>>" = .ok (.mk "Box" [.mk "Box" [.mk "U" []]]) ∧
      TypeExpr.read "Box<T>" = .ok (.mk "Box" [.mk "T" []])) ∧
    boxes.applications.size +
      (boxes.missing boxesScope (.mk "Box" [.mk "Box" [.mk "U" []]])).encard ≤ Limits.applications ∧
    boxesNested.Denotes boxesScope (.mk "Box" [.mk "Box" [.mk "U" []]]) ⟨7⟩ ∧
    boxes.AppendsApplications boxesNested ∧
    boxes.Denotes boxesScope (.mk "Box" [.mk "T" []]) ⟨0⟩ := by
  have hread : TypeExpr.read "Box<Box<U>>" = .ok (.mk "Box" [.mk "Box" [.mk "U" []]]) :=
    TypeExpr.read_eq_scan _
  have hreadOwn : TypeExpr.read "Box<T>" = .ok (.mk "Box" [.mk "T" []]) :=
    TypeExpr.read_eq_scan _
  have hfits : boxesScope.Fits boxes := by
    unfold Scope.Fits boxesScope
    decide
  have hbox : boxes.lookupName? "Box" = some ⟨0⟩ := by
    simp only [boxes, lookupName?, Std.HashMap.getElem?_insertIfNew]
    simp
  have hnode : boxes.node? ⟨0⟩ = some ⟨"Box", .classType, .definition [⟨1⟩], 0, none, []⟩ := rfl
  have hparam : (resolve boxesScope "Box<Box<U>>" (.mk "U" [])).run.run boxes =
      (.ok ⟨3⟩, boxes) := by
    rw [resolve]
    rfl
  have hown : (resolve boxesScope "Box<T>" (.mk "T" [])).run.run boxes = (.ok ⟨1⟩, boxes) := by
    rw [resolve]
    rfl
  have hfound : (instantiate ⟨0⟩ [⟨3⟩]).run.run boxes = (.ok ⟨4⟩, boxes) := by
    have hentry : boxes.applications[((⟨0⟩, [⟨3⟩]) : TypeId × List TypeId)]? = some ⟨4⟩ := by
      simp only [boxes, Std.HashMap.getElem?_insert]
      rfl
    rw [instantiate, Catalog.run_get_bind]
    simp only [hnode, hentry]
    rfl
  have hnew : (instantiate ⟨0⟩ [⟨4⟩]).run.run boxes = (.ok ⟨7⟩, boxesNested) :=
    instantiate_new ⟨0⟩ [⟨4⟩] hnode rfl rfl (by decide) (by decide) (by simp [boxes]) (by decide)
      (by simp [boxes, Std.HashMap.size_insert, Limits.applications])
  have hself : (instantiate ⟨0⟩ [⟨1⟩]).run.run boxes = (.ok ⟨0⟩, boxes) := by
    rw [instantiate, Catalog.run_get_bind]
    simp only [hnode]
    rfl
  have hinner := (run_resolve_application rfl hbox rfl (run_resolveAll_single hparam)).trans
    (run_ofBuild_ok hfound)
  have houter := (run_resolve_application rfl hbox rfl (run_resolveAll_single hinner)).trans
    (run_ofBuild_ok hnew)
  have hdefinition := (run_resolve_application rfl hbox rfl (run_resolveAll_single hown)).trans
    (run_ofBuild_ok hself)
  obtain ⟨hroom, hdenotes, -, -, -, happends⟩ :=
    resolve_faithful reachable_boxes hfits hread houter
  obtain ⟨-, hdenotesOwn, -⟩ := resolve_faithful reachable_boxes hfits hreadOwn hdefinition
  exact ⟨⟨reachable_boxes, hfits, hread, hreadOwn⟩, (hroom.mp ⟨_, rfl⟩).2,
    ((hdenotes _ rfl).1 _).mpr rfl, happends, ((hdenotesOwn _ rfl).1 _).mpr rfl⟩

end Load

end Generics

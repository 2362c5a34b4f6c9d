/-
Generics.Proofs.Library.Expressions — what a type expression stands for.

The tree of an expression is a matter of declared names alone (`treeOf?`): which
applications a catalogue has does not enter into it. Resolving an expression
promises the type with that tree. Whether it succeeds or fails, the catalogue has
only grown by applications, and by parts of the tree alone if there is one. It
fails for two reasons only: the expression has no tree, or one of its parts is
beyond a limit (`Outcome`).
-/
import Generics.Library.Basic
import Generics.Proofs.Catalog.Following
import Generics.Proofs.Catalog.Substitution

namespace Generics

open TypeTree

/-! ## 1. The tree of an expression -/

namespace Catalog

mutual

/-- The tree that an expression stands for. -/
def treeOf? (c : Catalog) (scope : Scope) : TypeExpr → Option TypeTree
  | .mk name args =>
    match scope.lookup name with
    | some param => if args.isEmpty then some (.leaf param) else none
    | none =>
      match c.lookupName? name with
      | none => none
      | some id =>
        if args.isEmpty then some (c.tree id)
        else
          match c.treesOf? scope args with
          | none => none
          | some trees =>
            if trees.length = (c.params id).length then some (.apply id trees) else none

/-- The trees that several expressions stand for. -/
def treesOf? (c : Catalog) (scope : Scope) : List TypeExpr → Option (List TypeTree)
  | [] => some []
  | e :: rest =>
    match c.treeOf? scope e with
    | none => none
    | some tree => (c.treesOf? scope rest).map (tree :: ·)

end

/-- The tree that a written expression stands for. -/
def treeOfText? (c : Catalog) (scope : Scope) (text : String) : Option TypeTree :=
  match TypeExpr.read text with
  | .error _ => none
  | .ok e => c.treeOf? scope e

section

variable {c c' : Catalog} {scope : Scope}

/-- A name with arguments stands for an application if there are as many of them as
the name has parameters. -/
theorem treeOf?_application {name : String} {args : List TypeExpr} {id : TypeId}
    (hscope : scope.lookup name = none) (hname : c.lookupName? name = some id)
    (hargs : args.isEmpty = false) :
    c.treeOf? scope (.mk name args) = (c.treesOf? scope args).bind fun trees =>
      if trees.length = (c.params id).length then some (.apply id trees) else none := by
  simp only [treeOf?, hscope, hname, hargs, Bool.false_eq_true, if_false]
  cases c.treesOf? scope args <;> rfl

theorem treesOf?_ne_nil {es : List TypeExpr} {trees : List TypeTree} (hes : ¬ es.isEmpty = true)
    (h : c.treesOf? scope es = some trees) : trees ≠ [] := by
  cases es with
  | nil => exact absurd rfl hes
  | cons e rest =>
    rw [treesOf?] at h
    split at h
    · cases h
    · obtain ⟨others, -, rfl⟩ := Option.map_eq_some_iff.mp h
      exact List.cons_ne_nil _ _

mutual

theorem treeOf?_congr (hc : c.WellFormed) (hp : c.Preserves c')
    (hdeclared : c'.declared = c.declared) :
    (e : TypeExpr) → c'.treeOf? scope e = c.treeOf? scope e
  | .mk name args => by
    have hlookup : c'.lookupName? name = c.lookupName? name := by
      rw [lookupName?, lookupName?, hdeclared]
    rw [treeOf?, treeOf?, hlookup, treesOf?_congr hc hp hdeclared args]
    cases scope.lookup name with
    | some param => rfl
    | none =>
      cases hname : c.lookupName? name with
      | none => rfl
      | some id =>
        have hid := hc.knows_of_lookupName? hname
        simp only [hp.tree hid, hp.params_of_knows hid]

theorem treesOf?_congr (hc : c.WellFormed) (hp : c.Preserves c')
    (hdeclared : c'.declared = c.declared) :
    (es : List TypeExpr) → c'.treesOf? scope es = c.treesOf? scope es
  | [] => rfl
  | e :: rest => by
    rw [treesOf?, treesOf?, treeOf?_congr hc hp hdeclared e, treesOf?_congr hc hp hdeclared rest]

end

theorem treeOfText?_congr (hc : c.WellFormed) (hp : c.Preserves c')
    (hdeclared : c'.declared = c.declared) (text : String) :
    c'.treeOfText? scope text = c.treeOfText? scope text := by
  rw [treeOfText?, treeOfText?]
  cases TypeExpr.read text with
  | error e => rfl
  | ok e => exact treeOf?_congr hc hp hdeclared e

end

end Catalog

/-! ## 2. Scopes and renaming -/

/-- Names in scope stand for type parameters. -/
def Scope.Fits (scope : Scope) (c : Catalog) : Prop :=
  ∀ b ∈ scope, c.isParameter b.2 = true

theorem Scope.fits_nil {c : Catalog} : Scope.Fits [] c := nofun

theorem Scope.Fits.isParameter {scope : Scope} {c : Catalog} (h : scope.Fits c) {name : String}
    {param : TypeId} (hlookup : scope.lookup name = some param) : c.isParameter param = true := by
  obtain ⟨before, after, rfl, -⟩ := List.lookup_eq_some_iff.mp hlookup
  exact h (name, param) (List.mem_append_right _ List.mem_cons_self)

theorem Scope.Fits.mono {scope : Scope} {c c' : Catalog} (h : scope.Fits c) (hp : c.Preserves c') :
    scope.Fits c' := fun b hb => by
  rw [hp.isParameter (Catalog.knows_of_isParameter (h b hb))]
  exact h b hb

/-- A scope with other numbers. -/
def Scope.rename (φ : TypeId → TypeId) (scope : Scope) : Scope :=
  scope.map fun b => (b.1, φ b.2)

theorem Scope.lookup_rename (φ : TypeId → TypeId) (scope : Scope) (name : String) :
    (scope.rename φ).lookup name = (scope.lookup name).map φ := by
  induction scope with
  | nil => rfl
  | cons b rest ih =>
    rw [rename, List.map_cons, List.lookup_cons, List.lookup_cons]
    cases name == b.1 with
    | true => rfl
    | false => exact ih

theorem Scope.ofParams_rename (φ : TypeId → TypeId) (names : List String) (ids : List TypeId) :
    (Scope.ofParams names ids).rename φ = Scope.ofParams names (ids.map φ) := by
  rw [rename, ofParams, ofParams, List.map_reverse, List.zip_map_right]
  rfl

namespace Catalog.Follows

variable {φ : TypeId → TypeId} {c c' : Catalog} {scope : Scope}

theorem params_of_lookupName? (h : Follows φ c c') {name : String} {id : TypeId}
    (hname : c.lookupName? name = some id) : c'.params (φ id) = (c.params id).map φ := by
  obtain ⟨n, hnode, -, -, hnot⟩ := h.source.declared hname
  obtain ⟨n', hnode', -, -, hform⟩ := h.declared hnode hnot
  rw [params, params, hnode, hnode', Option.map_some, Option.map_some, Option.getD_some,
    Option.getD_some, Node.params, Node.params, hform]
  cases n.form <;> rfl

mutual

/-- Under renamed numbers an expression stands for the renamed tree. -/
theorem treeOf?_rename (h : Follows φ c c')
    (hlookup : ∀ name, c'.lookupName? name = (c.lookupName? name).map φ) :
    (e : TypeExpr) → c'.treeOf? (scope.rename φ) e = (c.treeOf? scope e).map (rename φ)
  | .mk name args => by
    rw [treeOf?, treeOf?, Scope.lookup_rename, hlookup, treesOf?_rename h hlookup args]
    cases scope.lookup name with
    | some param =>
      simp only [Option.map_some]
      split
      · rw [Option.map_some, rename_leaf]
      · rfl
    | none =>
      cases hname : c.lookupName? name with
      | none => rfl
      | some id =>
        obtain ⟨n, hnode, -, -, hnot⟩ := h.source.declared hname
        simp only [Option.map_none, Option.map_some, h.tree_of_declared hnode hnot,
          h.params_of_lookupName? hname, List.length_map]
        split
        · rfl
        cases c.treesOf? scope args with
        | none => rfl
        | some trees =>
          simp only [Option.map_some, List.length_map]
          split
          · rw [Option.map_some, rename_apply]
          · rfl

theorem treesOf?_rename (h : Follows φ c c')
    (hlookup : ∀ name, c'.lookupName? name = (c.lookupName? name).map φ) :
    (es : List TypeExpr) →
      c'.treesOf? (scope.rename φ) es = (c.treesOf? scope es).map (List.map (rename φ))
  | [] => rfl
  | e :: rest => by
    rw [treesOf?, treesOf?, treeOf?_rename h hlookup e, treesOf?_rename h hlookup rest]
    cases c.treeOf? scope e with
    | none => rfl
    | some tree => cases c.treesOf? scope rest <;> rfl

end

theorem treeOfText?_rename (h : Follows φ c c')
    (hlookup : ∀ name, c'.lookupName? name = (c.lookupName? name).map φ) (text : String) :
    c'.treeOfText? (scope.rename φ) text = (c.treeOfText? scope text).map (rename φ) := by
  rw [treeOfText?, treeOfText?]
  cases TypeExpr.read text with
  | error e => rfl
  | ok e => exact h.treeOf?_rename hlookup e

end Catalog.Follows

/-! ## 3. Runs that load -/

namespace Load

open Catalog

section

variable {α β : Type} {x : Load α} {f : α → Load β} {c c' : Catalog}

theorem run_bind_ok {a : α} (h : x.run.run c = (.ok a, c')) :
    (x >>= f).run.run c = (f a).run.run c' := by
  rw [ExceptT.run_bind, StateT.run_bind, h]
  rfl

theorem run_bind_error {e : LibraryError} (h : x.run.run c = (.error e, c')) :
    (x >>= f).run.run c = (.error e, c') := by
  rw [ExceptT.run_bind, StateT.run_bind, h]
  rfl

/-- A part of loading that starts by looking at the catalogue. -/
theorem run_get_bind (f : Catalog → Load α) (c : Catalog) :
    (do f (← get) : Load α).run.run c = (f c).run.run c := rfl

theorem run_ofBuild (x : Build α) (c : Catalog) :
    (ofBuild x).run.run c =
      (Except.mapError LibraryError.catalog (x.run.run c).1, (x.run.run c).2) :=
  rfl

theorem run_ofBuild_ok {x : Build α} {a : α} (h : x.run.run c = (.ok a, c')) :
    (ofBuild x).run.run c = (.ok a, c') := by
  rw [run_ofBuild, h]
  rfl

end

/-- Resolving a name with arguments ends with applying what the name stands for. -/
theorem run_resolve_application {scope : Scope} {source name : String} {args : List TypeExpr}
    {d : TypeId} {ids : List TypeId} {c c₁ : Catalog} (hscope : scope.lookup name = none)
    (hname : c.lookupName? name = some d) (hargs : args.isEmpty = false)
    (hall : (resolveAll scope source args).run.run c = (.ok ids, c₁)) :
    (resolve scope source (.mk name args)).run.run c =
      (ofBuild (instantiate d ids)).run.run c₁ := by
  rw [resolve]
  simp only [hscope]
  rw [run_get_bind]
  simp only [hname, hargs]
  exact run_bind_ok hall

/-- What loading from `c` has come to: the catalogue has grown by trees of `X`, an
answer has the property `Q`, and a failure means that `U` holds or that the
catalogue has refused a tree of `X`. -/
structure Outcome {α : Type} (X : TypeTree → Prop) (c : Catalog) (Q : α → Catalog → Prop)
    (U : Prop) (result : Except LibraryError α × Catalog) : Prop where
  grows : Grows X c result.2
  ok : ∀ {a}, result.1 = .ok a → Q a result.2
  error : ∀ {e}, result.1 = .error e → U ∨ ∃ refusal, Refused X result.2 refusal

namespace Outcome

variable {α β : Type} {X : TypeTree → Prop} {c : Catalog} {Q : α → Catalog → Prop} {U V : Prop}

theorem pure {a : α} (hc : c.WellFormed) (h : Q a c) :
    Outcome X c Q U ((pure a : Load α).run.run c) where
  grows := .refl hc
  ok ha := by cases ha; exact h
  error he := by cases he

theorem throw {e : LibraryError} (hc : c.WellFormed) (h : U) :
    Outcome X c Q U ((throw e : Load α).run.run c) where
  grows := .refl hc
  ok ha := by cases ha
  error _ := .inl h

theorem mono {R : α → Catalog → Prop} {result : Except LibraryError α × Catalog}
    (h : Outcome X c Q U result) (hQR : ∀ a c', Q a c' → R a c') (hUV : U → V) :
    Outcome X c R V result where
  grows := h.grows
  ok ha := hQR _ _ (h.ok ha)
  error he := (h.error he).imp_left hUV

theorem ofBuild {x : Build α} (h : Within X c Q (x.run.run c)) :
    Outcome X c Q U ((ofBuild x).run.run c) := by
  rw [run_ofBuild]
  refine ⟨h.grows, fun {a} ha => ?_, fun {e} he => ?_⟩
  · cases hx : (x.run.run c).1 with
    | error e => simp [hx, Except.mapError] at ha
    | ok a' =>
      simp only [hx, Except.mapError, Except.ok.injEq] at ha
      exact ha ▸ h.ok hx
  · cases hx : (x.run.run c).1 with
    | error refusal => exact .inr ⟨refusal, h.error hx⟩
    | ok a' => simp [hx, Except.mapError] at he

/-- One part of loading after another. -/
theorem bind {R : β → Catalog → Prop} {x : Load α} {f : α → Load β}
    (hx : Outcome X c Q U (x.run.run c))
    (hf : ∀ a c', Grows X c c' → Q a c' → Outcome X c' R U ((f a).run.run c')) :
    Outcome X c R U ((x >>= f).run.run c) := by
  rcases hrun : x.run.run c with ⟨e | a, c'⟩
  · rw [hrun] at hx
    rw [run_bind_error hrun]
    exact ⟨hx.grows, nofun, fun he => by cases he; exact hx.error rfl⟩
  · rw [hrun] at hx
    rw [run_bind_ok hrun]
    have hnext := hf a c' hx.grows (hx.ok rfl)
    exact ⟨hx.grows.trans hnext.grows, hnext.ok, hnext.error⟩

end Outcome

/-! ## 4. Resolving expressions -/

section

variable {c : Catalog} {scope : Scope} {X : TypeTree → Prop}

/-- Another number of arguments than there are parameters is refused. -/
theorem instantiate_error {d : TypeId} {args : List TypeId}
    (h : args.length ≠ (c.params d).length) :
    ∃ e, (instantiate d args).run.run c = (.error e, c) := by
  have hrun := instantiated_run c d args
  generalize (instantiate d args).run.run c = result at hrun ⊢
  cases hrun with
  | own hform => exact absurd (by rw [params_of_definition hform]) h
  | found hform hlength => exact absurd (by rw [params_of_definition hform, hlength]) h
  | entered hnode hform hlength =>
    have hparams := params_of_definition (form?_eq_some.mpr ⟨_, hnode, hform⟩)
    exact absurd (by rw [hparams, hlength]) h
  | _ => exact ⟨_, rfl⟩

/-- Applying a definition as an expression says gives the type with its tree. -/
theorem outcome_instantiate (hc : c.WellFormed) {d : TypeId} {ids : List TypeId} (hne : ids ≠ [])
    (hids : ∀ id ∈ ids, c.knows id = true)
    (hX : ∀ u, (ids.length = (c.params d).length →
      c.AppliedPart (.apply d (ids.map c.tree)) u) → X u) :
    Outcome X c
      (fun id c' => c'.knows id = true ∧ ids.length = (c.params d).length ∧
        c'.tree id = .apply d (ids.map c.tree))
      (ids.length ≠ (c.params d).length) ((ofBuild (instantiate d ids)).run.run c) := by
  by_cases hlength : ids.length = (c.params d).length
  · have hform : c.form? d = some (.definition (c.params d)) := by
      cases hparams : c.params d with
      | nil => exact absurd (List.eq_nil_of_length_eq_zero (by rw [hlength, hparams]; rfl)) hne
      | cons p rest =>
        rw [← hparams]
        exact form?_of_mem_params (by rw [hparams]; exact List.mem_cons_self)
    have hwithin := within_instantiate (X := X) hc hform hlength hids fun hown => ?_
    · exact .ofBuild ⟨hwithin.grows,
        fun hok => ⟨(hwithin.ok hok).1, hlength, (hwithin.ok hok).2⟩, hwithin.error⟩
    · refine hX _ fun _ => ⟨.refl _, ?_⟩
      rw [isApplied, Bool.not_eq_true', Bool.eq_false_iff, ne_eq, areOwnParams_iff]
      exact fun heq => hown (eq_of_map_eq_map heq fun a _ b hab => hc.eq_of_tree_eq_leaf hab)
  · obtain ⟨e, hrun⟩ := instantiate_error hlength
    rw [run_ofBuild, hrun]
    exact ⟨.refl hc, fun hok => (by cases hok), fun _ => .inl hlength⟩

mutual

/-- Resolving an expression gives the type with its tree. -/
theorem outcome_resolve {c : Catalog} (hc : c.WellFormed) (hscope : scope.Fits c)
    (source : String) : (e : TypeExpr) →
    (hX : ∀ u, (∀ t, c.treeOf? scope e = some t → c.AppliedPart t u) → X u) →
    Outcome X c (fun id c' => c'.knows id = true ∧ c.treeOf? scope e = some (c'.tree id))
      (c.treeOf? scope e = none) ((resolve scope source e).run.run c)
  | .mk name args, hX => by
    rw [resolve]
    cases hparam : scope.lookup name with
    | some param =>
      have hp := hscope.isParameter hparam
      have htree := tree_of_definition?_none (definition?_of_isParameter hp)
      by_cases hargs : args.isEmpty = true
      · simp only [hargs, if_pos]
        exact .pure hc ⟨knows_of_isParameter hp, by simp [treeOf?, hparam, hargs, htree]⟩
      · simp only [hargs]
        exact .throw hc (by simp [treeOf?, hparam, hargs])
    | none =>
      rw [run_get_bind]
      cases hname : c.lookupName? name with
      | none => exact .throw hc (by simp [treeOf?, hparam, hname])
      | some id =>
        by_cases hargs : args.isEmpty = true
        · simp only [hargs, if_pos]
          exact .pure hc ⟨hc.knows_of_lookupName? hname, by simp [treeOf?, hparam, hname, hargs]⟩
        · simp only [hargs]
          rw [treeOf?_application hparam hname (Bool.eq_false_iff.mpr hargs)] at hX ⊢
          refine .bind
            ((outcome_resolveAll hc hscope source args fun u hu => hX u fun t ht => ?_).mono
              (fun _ _ h => h) fun hnone => by rw [hnone]; rfl) ?_
          · obtain ⟨trees, htrees, hif⟩ := Option.bind_eq_some_iff.mp ht
            obtain ⟨a, ha, hpart⟩ := hu trees htrees
            split at hif
            · cases hif
              exact ⟨.arg ha hpart.1, hpart.2⟩
            · cases hif
          · rintro ids c₁ hg ⟨hids, htrees⟩
            have hne : ids ≠ [] := fun hnil => treesOf?_ne_nil hargs htrees (by rw [hnil]; rfl)
            rw [htrees, Option.bind_some, List.length_map] at hX ⊢
            refine (outcome_instantiate hg.wellFormed hne hids ?_).mono ?_ ?_
            · intro u hu
              refine hX u fun t ht => ?_
              split at ht
              · rename_i hlength
                cases ht
                rw [← hg.appliedPart_iff]
                exact hu (by rw [hg.params, hlength])
              · cases ht
            · rintro x c₂ ⟨hx, hlength, htree⟩
              rw [hg.params] at hlength
              exact ⟨hx, by rw [if_pos hlength, htree]⟩
            · rw [hg.params]
              exact fun hlength => if_neg hlength

theorem outcome_resolveAll {c : Catalog} (hc : c.WellFormed) (hscope : scope.Fits c)
    (source : String) : (es : List TypeExpr) →
    (hX : ∀ u, (∀ ts, c.treesOf? scope es = some ts → ∃ t ∈ ts, c.AppliedPart t u) → X u) →
    Outcome X c
      (fun ids c' => (∀ id ∈ ids, c'.knows id = true) ∧
        c.treesOf? scope es = some (ids.map c'.tree))
      (c.treesOf? scope es = none) ((resolveAll scope source es).run.run c)
  | [], hX => .pure hc ⟨nofun, rfl⟩
  | e :: rest, hX => by
    rw [resolveAll]
    rw [treesOf?] at hX ⊢
    refine .bind ((outcome_resolve hc hscope source e fun u hu => hX u fun ts hts => ?_).mono
      (fun _ _ h => h) fun hnone => by rw [hnone]) ?_
    · cases htree : c.treeOf? scope e with
      | none => simp [htree] at hts
      | some tree =>
        simp only [htree] at hts
        obtain ⟨trees, -, rfl⟩ := Option.map_eq_some_iff.mp hts
        exact ⟨tree, List.mem_cons_self, hu tree htree⟩
    · rintro id c₁ hg ⟨hid, htree⟩
      simp only [htree] at hX ⊢
      have hcongr : c₁.treesOf? scope rest = c.treesOf? scope rest :=
        treesOf?_congr hc hg.preserves hg.declared rest
      refine .bind ((outcome_resolveAll hg.wellFormed (hscope.mono hg.preserves) source rest
        fun u hu => hX u fun ts hts => ?_).mono (fun _ _ h => h) fun hnone => ?_) ?_
      · obtain ⟨trees, htrees, rfl⟩ := Option.map_eq_some_iff.mp hts
        obtain ⟨t, ht, hpart⟩ := hu trees (hcongr.trans htrees)
        exact ⟨t, List.mem_cons_of_mem _ ht, hg.appliedPart_iff.mp hpart⟩
      · rw [← hcongr, hnone]
        rfl
      · rintro ids c₂ hg' ⟨hids, htrees⟩
        refine .pure hg'.wellFormed ⟨fun x hx => ?_, ?_⟩
        · rcases List.mem_cons.mp hx with rfl | hx
          · exact hg'.preserves.knows hid
          · exact hids x hx
        · rw [← hcongr, htrees, Option.map_some, List.map_cons, hg'.preserves.tree hid]

end

/-- Resolving a written expression gives the type with its tree. -/
theorem outcome_resolveText (hc : c.WellFormed) (hscope : scope.Fits c) (text : String)
    (hX : ∀ u, (∀ t, c.treeOfText? scope text = some t → c.AppliedPart t u) → X u) :
    Outcome X c (fun id c' => c'.knows id = true ∧ c.treeOfText? scope text = some (c'.tree id))
      (c.treeOfText? scope text = none) ((resolveText scope text).run.run c) := by
  rw [treeOfText?] at hX ⊢
  rw [resolveText]
  cases hread : TypeExpr.read text with
  | error e => exact .throw hc rfl
  | ok e =>
    simp only [hread] at hX ⊢
    exact outcome_resolve hc hscope text e hX

theorem outcome_resolveTexts (hc : c.WellFormed) (hscope : scope.Fits c) (texts : List String)
    (hX : ∀ text ∈ texts, ∀ u,
      (∀ t, c.treeOfText? scope text = some t → c.AppliedPart t u) → X u) :
    Outcome X c
      (fun ids c' => (∀ id ∈ ids, c'.knows id = true) ∧
        texts.map (c.treeOfText? scope) = ids.map fun id => some (c'.tree id))
      (∃ text ∈ texts, c.treeOfText? scope text = none)
      ((resolveTexts scope texts).run.run c) := by
  induction texts generalizing c with
  | nil => exact .pure hc ⟨nofun, rfl⟩
  | cons text rest ih =>
    rw [resolveTexts]
    refine .bind ((outcome_resolveText hc hscope text (hX text List.mem_cons_self)).mono
      (fun _ _ h => h) fun hnone => ⟨text, List.mem_cons_self, hnone⟩) ?_
    rintro id c₁ hg ⟨hid, htree⟩
    have hcongr : c₁.treeOfText? scope = c.treeOfText? scope :=
      funext fun other => treeOfText?_congr hc hg.preserves hg.declared other
    refine .bind ((ih hg.wellFormed (hscope.mono hg.preserves) fun other hother u hu =>
      hX other (List.mem_cons_of_mem _ hother) u fun t ht => ?_).mono (fun _ _ h => h) ?_) ?_
    · rw [hcongr] at hu
      exact hg.appliedPart_iff.mp (hu t ht)
    · rintro ⟨other, hother, hnone⟩
      exact ⟨other, List.mem_cons_of_mem _ hother, by rw [← hcongr, hnone]⟩
    · rintro ids c₂ hg' ⟨hids, htrees⟩
      rw [hcongr] at htrees
      refine .pure hg'.wellFormed ⟨fun x hx => ?_, ?_⟩
      · rcases List.mem_cons.mp hx with rfl | hx
        · exact hg'.preserves.knows hid
        · exact hids x hx
      · rw [List.map_cons, List.map_cons, htree, htrees, hg'.preserves.tree hid]

end

end Load

end Generics

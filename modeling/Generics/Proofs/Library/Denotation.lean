/-
Generics.Proofs.Library.Denotation — what a type expression denotes.

The type that an expression denotes is given by rules, one for each kind of name
(`Denotes`). Whether there can be one is said name by name (`Resolvable`). Neither mentions
trees, and both are compared with the tree of the expression: it has a tree exactly if all
its names can stand where they do, and the type it denotes is the one with that tree.

Every level of an application is written with brackets, so an application nests no deeper
than the expression (`WellFormed.treeDepth_le_nesting`).
-/
import Mathlib.Data.List.Forall2
import Generics.Proofs.Library.Expressions
import Generics.Proofs.TypeExpr.Grammar

namespace Generics

/-! ## 1. Names and what they denote -/

/-- `Part u e`: the expression `u` is `e` itself or lies below one of its arguments. -/
inductive TypeExpr.Part : TypeExpr → TypeExpr → Prop
  | refl (e : TypeExpr) : Part e e
  | arg {u a : TypeExpr} {name : String} {args : List TypeExpr} (mem : a ∈ args)
      (part : Part u a) : Part u (.mk name args)

namespace Catalog

/-- The type that an expression denotes. A name in scope is its parameter, and another bare
name is the declaration. A name with arguments is the definition applied to what the
arguments denote, which is the definition itself if these are its own parameters. -/
inductive Denotes (c : Catalog) (scope : Scope) : TypeExpr → TypeId → Prop
  | parameter {name : String} {param : TypeId} (hparam : scope.lookup name = some param) :
      Denotes c scope (.mk name []) param
  | declaration {name : String} {id : TypeId} (hscope : scope.lookup name = none)
      (hname : c.lookupName? name = some id) : Denotes c scope (.mk name []) id
  | own {name : String} {args : List TypeExpr} {d : TypeId} {ids : List TypeId}
      (hscope : scope.lookup name = none) (hname : c.lookupName? name = some d)
      (hne : args ≠ []) (hargs : List.Forall₂ (Denotes c scope) args ids)
      (hform : c.form? d = some (.definition ids)) : Denotes c scope (.mk name args) d
  | application {name : String} {args : List TypeExpr} {d id : TypeId} {ids : List TypeId}
      (hscope : scope.lookup name = none) (hname : c.lookupName? name = some d)
      (hne : args ≠ []) (hargs : List.Forall₂ (Denotes c scope) args ids)
      (hform : c.form? id = some (.application d ids)) : Denotes c scope (.mk name args) id

/-- A name can stand before these arguments: it is in scope or declared, if it is in scope
there are none, and otherwise, if there are any, it is an open definition of as many
parameters. -/
structure NameFits (c : Catalog) (scope : Scope) (name : String) (args : List TypeExpr) :
    Prop where
  declared : scope.lookup name = none → ∃ id, c.lookupName? name = some id
  bare : ∀ {param}, scope.lookup name = some param → args = []
  applied : ∀ {id}, scope.lookup name = none → c.lookupName? name = some id → args ≠ [] →
    ∃ params, c.form? id = some (.definition params) ∧ params.length = args.length

/-- All names of an expression can stand where they do. -/
def Resolvable (c : Catalog) (scope : Scope) (e : TypeExpr) : Prop :=
  ∀ name args, TypeExpr.Part (.mk name args) e → c.NameFits scope name args

/-! ## 2. Trees, name by name -/

section

variable {c : Catalog} {scope : Scope} {e : TypeExpr} {name : String} {args : List TypeExpr}
  {t : TypeTree} {id d : TypeId}

theorem treesOf?_eq_some_iff {es : List TypeExpr} {ts : List TypeTree} :
    c.treesOf? scope es = some ts ↔ es.map (c.treeOf? scope) = ts.map some := by
  induction es generalizing ts with
  | nil => cases ts <;> simp [treesOf?]
  | cons e rest ih =>
    rw [treesOf?, List.map_cons]
    cases htree : c.treeOf? scope e with
    | none => cases ts <;> simp
    | some tree => cases ts <;> simp [ih, and_comm]

/-- The three ways in which an expression has a tree. -/
theorem treeOf?_eq_some_iff :
    c.treeOf? scope (.mk name args) = some t ↔
      (∃ param, scope.lookup name = some param ∧ args = [] ∧ .leaf param = t) ∨
      (∃ id, scope.lookup name = none ∧ c.lookupName? name = some id ∧ args = [] ∧
        c.tree id = t) ∨
      ∃ id trees, scope.lookup name = none ∧ c.lookupName? name = some id ∧ args ≠ [] ∧
        args.map (c.treeOf? scope) = trees.map some ∧ trees.length = (c.params id).length ∧
        .apply id trees = t := by
  rw [treeOf?]
  cases hparam : scope.lookup name with
  | some param => cases args <;> simp
  | none =>
    cases hname : c.lookupName? name with
    | none => simp
    | some id =>
      cases args with
      | nil => simp
      | cons a rest =>
        simp only [List.isEmpty_cons, ← treesOf?_eq_some_iff]
        cases htrees : c.treesOf? scope (a :: rest) with
        | none => simp
        | some trees => simp

theorem form?_of_params_ne_nil (h : c.params d ≠ []) :
    c.form? d = some (.definition (c.params d)) := by
  obtain ⟨p, hp⟩ := List.exists_mem_of_ne_nil _ h
  exact form?_of_mem_params hp

theorem exists_trees {es : List TypeExpr} (h : ∀ a ∈ es, ∃ t, c.treeOf? scope a = some t) :
    ∃ trees : List TypeTree, es.map (c.treeOf? scope) = trees.map some := by
  induction es with
  | nil => exact ⟨[], rfl⟩
  | cons a rest ih =>
    obtain ⟨t, ht⟩ := h a List.mem_cons_self
    obtain ⟨trees, htrees⟩ := ih fun b hb => h b (List.mem_cons_of_mem _ hb)
    exact ⟨t :: trees, by rw [List.map_cons, List.map_cons, ht, htrees]⟩

theorem exists_tree_of_mem {a : TypeExpr} {trees : List TypeTree} (ha : a ∈ args)
    (h : args.map (c.treeOf? scope) = trees.map some) :
    ∃ t ∈ trees, c.treeOf? scope a = some t := by
  have hmem := List.mem_map_of_mem (f := c.treeOf? scope) ha
  rw [h] at hmem
  obtain ⟨t, ht, heq⟩ := List.mem_map.mp hmem
  exact ⟨t, ht, heq.symm⟩

theorem resolvable_mk_iff :
    c.Resolvable scope (.mk name args) ↔
      c.NameFits scope name args ∧ ∀ a ∈ args, c.Resolvable scope a := by
  constructor
  · intro h
    exact ⟨h _ _ (.refl _), fun a ha n as hpart => h n as (.arg ha hpart)⟩
  · rintro ⟨hhead, hargs⟩ n as hpart
    cases hpart with
    | refl => exact hhead
    | arg ha hpart => exact hargs _ ha n as hpart

/-- An expression can be resolved exactly if it has a tree. -/
theorem resolvable_iff : c.Resolvable scope e ↔ ∃ t, c.treeOf? scope e = some t := by
  induction e with
  | mk name args ih =>
    rw [resolvable_mk_iff]
    simp only [treeOf?_eq_some_iff]
    constructor
    · rintro ⟨hname, hargs⟩
      cases hscope : scope.lookup name with
      | some param => exact ⟨_, .inl ⟨param, rfl, hname.bare hscope, rfl⟩⟩
      | none =>
        obtain ⟨id, hid⟩ := hname.declared hscope
        by_cases hne : args = []
        · exact ⟨_, .inr (.inl ⟨id, rfl, hid, hne, rfl⟩)⟩
        · obtain ⟨params, hform, hlength⟩ := hname.applied hscope hid hne
          obtain ⟨trees, htrees⟩ := exists_trees fun a ha => (ih a ha).mp (hargs a ha)
          have hcount : args.length = trees.length := by simpa using congrArg List.length htrees
          refine ⟨_, .inr (.inr ⟨id, trees, rfl, hid, hne, htrees, ?_, rfl⟩)⟩
          rw [params_of_definition hform, hlength, hcount]
    · rintro ⟨t, ⟨param, hscope, rfl, -⟩ | ⟨id, hscope, hid, rfl, -⟩ |
        ⟨id, trees, hscope, hid, hne, htrees, hlength, -⟩⟩
      · refine ⟨⟨fun hnone => ?_, fun _ => rfl, fun _ _ hne => absurd rfl hne⟩, by simp⟩
        rw [hscope] at hnone
        cases hnone
      · refine ⟨⟨fun _ => ⟨id, hid⟩, fun _ => rfl, fun _ _ hne => absurd rfl hne⟩, by simp⟩
      · have hcount : args.length = trees.length := by simpa using congrArg List.length htrees
        refine ⟨⟨fun _ => ⟨id, hid⟩, fun hsome => ?_, fun _ hid' _ => ?_⟩, fun a ha => ?_⟩
        · rw [hscope] at hsome
          cases hsome
        · cases hid.symm.trans hid'
          refine ⟨c.params id, form?_of_params_ne_nil ?_, by rw [← hlength, hcount]⟩
          rintro hnil
          rw [← hcount, hnil] at hlength
          exact hne (List.eq_nil_of_length_eq_zero hlength)
        · obtain ⟨t, -, ht⟩ := exists_tree_of_mem ha htrees
          exact (ih a ha).mpr ⟨t, ht⟩

theorem forall₂_denotes_iff {ids : List TypeId}
    (h : ∀ a ∈ args, ∀ id, c.Denotes scope a id ↔ c.treeOf? scope a = some (c.tree id)) :
    List.Forall₂ (c.Denotes scope) args ids ↔
      args.map (c.treeOf? scope) = (ids.map c.tree).map some := by
  induction args generalizing ids with
  | nil => cases ids <;> simp
  | cons a rest ih =>
    cases ids with
    | nil => simp
    | cons id ids =>
      rw [List.forall₂_cons, h a List.mem_cons_self, ih fun b hb => h b (List.mem_cons_of_mem _ hb)]
      simp

/-- What an expression denotes is the type with its tree. -/
theorem WellFormed.denotes_iff (hc : c.WellFormed) (hscope : scope.Fits c) :
    c.Denotes scope e id ↔ c.treeOf? scope e = some (c.tree id) := by
  induction e generalizing id with
  | mk name args ih =>
    have hargs : ∀ {ids}, List.Forall₂ (c.Denotes scope) args ids ↔
        args.map (c.treeOf? scope) = (ids.map c.tree).map some :=
      forall₂_denotes_iff fun a ha id => ih a ha
    rw [treeOf?_eq_some_iff]
    constructor
    · intro hdenotes
      cases hdenotes with
      | parameter hparam =>
        refine .inl ⟨id, hparam, rfl, ?_⟩
        rw [tree_of_definition?_none (definition?_of_isParameter (hscope.isParameter hparam))]
      | declaration hnone hname => exact .inr (.inl ⟨id, hnone, hname, rfl, rfl⟩)
      | own hnone hname hne hall hform =>
        refine .inr (.inr ⟨id, _, hnone, hname, hne, hargs.mp hall, ?_, ?_⟩)
        · rw [List.length_map, params_of_definition hform]
        · rw [hc.tree_of_definition? (definition?_of_definition hform), args_of_definition hform]
      | application hnone hname hne hall hform =>
        obtain ⟨params, hdef, hlength⟩ := hc.form?_of_definition? (definition?_of_application hform)
        refine .inr (.inr ⟨_, _, hnone, hname, hne, hargs.mp hall, ?_, ?_⟩)
        · rw [List.length_map, params_of_definition hdef, ← hlength, args_of_application hform]
        · rw [hc.tree_of_application hform]
    · rintro (⟨param, hparam, rfl, htree⟩ | ⟨x, hnone, hname, rfl, htree⟩ |
        ⟨x, trees, hnone, hname, hne, htrees, -, htree⟩)
      · cases hc.eq_of_tree_eq_leaf htree.symm
        exact .parameter hparam
      · cases hc.tree_injective htree
        exact .declaration hnone hname
      · obtain ⟨hdef, rfl⟩ := hc.definition?_of_tree htree.symm
        have hall := hargs.mpr htrees
        rcases definition?_eq_some hdef with ⟨params, hform, rfl⟩ | ⟨as, hform⟩
        · rw [args_of_definition hform] at hall
          exact .own hnone hname hne hall hform
        · rw [args_of_application hform] at hall
          exact .application hnone hname hne hall hform

/-! ## 3. Depths -/

theorem treesDepth_le_iff {trees : List TypeTree} {n : Nat} :
    c.treesDepth trees ≤ n ↔ ∀ t ∈ trees, c.treeDepth t ≤ n := by
  induction trees with
  | nil => simp [treesDepth]
  | cons t rest ih => rw [treesDepth, Nat.max_le, ih, List.forall_mem_cons]

theorem treeDepth_apply_le {trees : List TypeTree} :
    c.treeDepth (.apply d trees) ≤ c.treesDepth trees + 1 := by
  rw [treeDepth]
  split
  · exact Nat.zero_le _
  · exact Nat.le_refl _

/-- No part of a tree nests deeper than the tree. -/
theorem treeDepth_le_of_part {u : TypeTree} (h : TypeTree.Part u t) :
    c.treeDepth u ≤ c.treeDepth t := by
  induction h with
  | refl => exact Nat.le_refl _
  | @arg a definition args hmem _ ih =>
    rw [treeDepth]
    split
    · -- the arguments of an open definition are leaves
      rename_i hown
      rw [areOwnParams_iff.mp hown] at hmem
      obtain ⟨p, -, rfl⟩ := List.mem_map.mp hmem
      exact ih
    · have ha : c.treeDepth a ≤ c.treesDepth args := treesDepth_le_iff.mp (Nat.le_refl _) a hmem
      omega

theorem treesDepth_le_nestingAll {trees : List TypeTree}
    (htrees : args.map (c.treeOf? scope) = trees.map some)
    (h : ∀ a ∈ args, ∀ t, c.treeOf? scope a = some t → c.treeDepth t ≤ a.nesting) :
    c.treesDepth trees ≤ TypeExpr.nestingAll args := by
  refine treesDepth_le_iff.mpr fun t ht => ?_
  have hmem := List.mem_map_of_mem (f := some) ht
  rw [← htrees] at hmem
  obtain ⟨a, ha, htree⟩ := List.mem_map.mp hmem
  exact Nat.le_trans (h a ha t htree) (TypeExpr.nestingAll_le_iff.mp (Nat.le_refl _) a ha)

/-- Every level of an application comes from a bracket. -/
theorem WellFormed.treeDepth_le_nesting (hc : c.WellFormed) (h : c.treeOf? scope e = some t) :
    c.treeDepth t ≤ e.nesting := by
  induction e generalizing t with
  | mk name args ih =>
    rcases treeOf?_eq_some_iff.mp h with ⟨param, -, -, rfl⟩ | ⟨id, -, hname, -, rfl⟩ |
      ⟨id, trees, -, -, hne, htrees, -, rfl⟩
    · exact Nat.zero_le _
    · obtain ⟨node, hnode, -, -, hnot⟩ := hc.declared hname
      have hzero : c.depth id = 0 := by
        refine hc.depth_eq_zero fun d as hform => ?_
        rw [form?_of_node? hnode, Option.some.injEq] at hform
        rw [isApplication_iff.mpr ⟨d, as, hform⟩] at hnot
        cases hnot
      rw [← hc.depth_eq_treeDepth, hzero]
      exact Nat.zero_le _
    · have hargs := treesDepth_le_nestingAll htrees fun a ha t ht => ih a ha ht
      calc c.treeDepth (.apply id trees)
        _ ≤ c.treesDepth trees + 1 := treeDepth_apply_le
        _ ≤ TypeExpr.nestingAll args + 1 := Nat.add_le_add_right hargs 1
        _ = (TypeExpr.mk name args).nesting := (TypeExpr.nesting_mk hne).symm

end

end Catalog

end Generics

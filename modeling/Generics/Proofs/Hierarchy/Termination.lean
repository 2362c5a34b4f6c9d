/-
Generics.Proofs.Hierarchy.Termination — materialization ends, and stays within the limits.

Materialization goes through a list that it makes longer itself, and declared links can ask for
more and more types without an end. What ends it is the budget: a type is added to the
list only as an application, and applications are limited in number. So `Visits`, which
says nothing but what the loop does at each number, has a derivation from every catalogue
(`exists_visits`), and a derivation is no longer than the budget.

The limits are kept not only where the loop stops. A run comes through further catalogues, after
each application that it enters (`LoopMoment`), and all of them are well-formed.
-/
import Generics.Proofs.Hierarchy.Cycles

namespace Generics.Catalog

open Relation TypeTree

/-! ## 1. The numbers that are visited -/

/-- `Visits index c visited result`: at number `index` of the catalogue `c` the loop goes on to
visit the numbers `visited` and stops with `result`. It stops behind the last type or at
the first refusal. -/
inductive Visits : Nat → Catalog → List Nat → Except CatalogError Unit × Catalog → Prop
  | ended {index : Nat} {c : Catalog} (hend : c.size ≤ index) : Visits index c [] (.ok (), c)
  | refused {index : Nat} {c c' : Catalog} {e : CatalogError} (hlt : index < c.size)
      (hstep : (materialize ⟨index⟩).run.run c = (.error e, c')) :
      Visits index c [index] (.error e, c')
  | passed {index : Nat} {c c' : Catalog} {visited : List Nat}
      {result : Except CatalogError Unit × Catalog} (hlt : index < c.size)
      (hstep : (materialize ⟨index⟩).run.run c = (.ok (), c'))
      (hrest : Visits (index + 1) c' visited result) : Visits index c (index :: visited) result

/-- The loop stops. -/
theorem exists_visits (index : Nat) (c : Catalog) :
    ∃ visited, Visits index c visited (materializeFrom index c) := by
  fun_induction materializeFrom index c with
  | case1 index c hlt e c' hrun => exact ⟨_, .refused hlt hrun⟩
  | case2 index c hlt c' hrun ih =>
    obtain ⟨visited, hvisits⟩ := ih
    exact ⟨_, .passed hlt hrun hvisits⟩
  | case3 index c hge => exact ⟨_, .ended (Nat.le_of_not_lt hge)⟩

namespace Visits

variable {index : Nat} {c : Catalog} {visited : List Nat}
  {result : Except CatalogError Unit × Catalog}

/-- The numbers are visited in their order. -/
theorem eq_range' (h : Visits index c visited result) :
    visited = List.range' index visited.length := by
  induction h with
  | ended => rfl
  | refused => rfl
  | passed _ _ _ ih => rw [List.length_cons, List.range'_succ, ← ih]

/-- Each visit is paid for: the types that are there when it begins are within the budget, and
no step changes the budget. -/
theorem length_le (h : Visits index c visited result) : visited.length ≤ c.budget - index := by
  induction h with
  | ended => exact Nat.zero_le _
  | @refused index c c' e hlt =>
    have hsize := c.size_le_budget
    rw [List.length_singleton]
    omega
  | @passed index c c' visited result hlt hstep _ ih =>
    have hbudget := keepsBudget_materialize ⟨index⟩ c
    rw [hstep] at hbudget
    have hsize := c.size_le_budget
    simp only [List.length_cons] at hbudget ⊢
    omega

end Visits

/-! ## 2. The moments of a run -/

/-- `SubstituteMoment σ id c m`: substituting into `id` from the catalogue `c` comes through
the catalogue `m`. Arguments are substituted from left to right. -/
inductive SubstituteMoment (σ : Substitution) : TypeId → Catalog → Catalog → Prop
  | start (id : TypeId) (c : Catalog) : SubstituteMoment σ id c c
  | argument {id definition a : TypeId} {before after done : List TypeId} {c c' m : Catalog}
      (hform : c.form? id = some (.application definition (before ++ a :: after)))
      (hbefore : (substituteArgs σ id before).run.run c = (.ok done, c'))
      (hm : SubstituteMoment σ a c' m) : SubstituteMoment σ id c m
  | stop {id : TypeId} {c m : Catalog} {result : Except CatalogError TypeId}
      (hrun : (substitute σ id).run.run c = (result, m)) : SubstituteMoment σ id c m

/-- `MaterializeMoment id c m`: giving `id` its links comes from `c` through `m`. The base is
worked out first and then the interfaces from left to right. -/
inductive MaterializeMoment : TypeId → Catalog → Catalog → Prop
  | start (id : TypeId) (c : Catalog) : MaterializeMoment id c c
  | base {id definition link : TypeId} {args : List TypeId} {definitionNode : Node}
      {c m : Catalog} (hform : c.form? id = some (.application definition args))
      (hdef : c.node? definition = some definitionNode)
      (hlink : definitionNode.base = some link)
      (hm : SubstituteMoment (definitionNode.params.zip args) link c m) : MaterializeMoment id c m
  | interface {id definition link : TypeId} {args before after done : List TypeId}
      {base : Option TypeId} {definitionNode : Node} {c c₁ c₂ m : Catalog}
      (hform : c.form? id = some (.application definition args))
      (hdef : c.node? definition = some definitionNode)
      (hlink : definitionNode.interfaces = before ++ link :: after)
      (hbase : (substituteBase (definitionNode.params.zip args) definitionNode.base).run.run c =
        (.ok base, c₁))
      (hbefore : (substituteAll (definitionNode.params.zip args) before).run.run c₁ =
        (.ok done, c₂))
      (hm : SubstituteMoment (definitionNode.params.zip args) link c₂ m) :
      MaterializeMoment id c m
  | stop {id : TypeId} {c m : Catalog} {result : Except CatalogError Unit}
      (hrun : (materialize id).run.run c = (result, m)) : MaterializeMoment id c m

/-- `LoopMoment index c m`: the loop, at number `index` of `c`, comes through `m`. -/
inductive LoopMoment : Nat → Catalog → Catalog → Prop
  | here (index : Nat) (c : Catalog) : LoopMoment index c c
  | inside {index : Nat} {c m : Catalog} (hlt : index < c.size)
      (hm : MaterializeMoment ⟨index⟩ c m) : LoopMoment index c m
  | later {index : Nat} {c c' m : Catalog} (hlt : index < c.size)
      (hstep : (materialize ⟨index⟩).run.run c = (.ok (), c'))
      (hm : LoopMoment (index + 1) c' m) : LoopMoment index c m

section

variable {c c₀ m : Catalog} {σ : Substitution} {id definition : TypeId} {args : List TypeId}
  {definitionNode : Node} {index : Nat}

/-- The arguments of an application may be substituted for the parameters of its definition. -/
theorem WellFormed.substitutes_of_application (hc : c.WellFormed)
    (hform : c.form? id = some (.application definition args))
    (hdef : c.node? definition = some definitionNode) :
    c.Substitutes (definitionNode.params.zip args) := by
  obtain ⟨node, hnode, hnform⟩ := form?_eq_some.mp hform
  obtain ⟨_, hdef', -, -, hσ⟩ := hc.node?_definition hnode hnform
  cases hdef.symm.trans hdef'
  exact hσ

theorem SubstituteMoment.grows (h : SubstituteMoment σ id c m) (hc : c.WellFormed)
    (hσ : c.Substitutes σ) (hid : c.knows id = true) : Grows (fun _ => True) c m := by
  induction h with
  | start => exact .refl hc
  | @argument id definition a before after done c c' m hform hbefore _ ih =>
    obtain ⟨_, -, happ⟩ := hc.appliedTo hform
    have hargs : ∀ b ∈ before, b.index < id.index := fun b hb =>
      happ.args_older b (List.mem_append_left _ hb)
    have ha : c.knows a = true := knows_of_lt hid (happ.args_older a (by simp))
    have hwithin := within_substituteArgs hc hσ hid hargs fun _ _ _ _ => trivial
    rw [hbefore] at hwithin
    have hgrows := hwithin.grows
    exact hgrows.trans (ih hgrows.wellFormed (hσ.mono hgrows.preserves) (hgrows.preserves.knows ha))
  | stop hrun =>
    have hwithin := within_substitute hc hσ hid fun _ _ => trivial
    rw [hrun] at hwithin
    exact hwithin.grows

/-- While links are worked out, the catalogue is well-formed. -/
theorem Progress.wellFormed_of_moment (h : Progress c₀ index c) (hc₀ : c₀.WellFormed)
    (hlt : index < c.size) (hm : MaterializeMoment ⟨index⟩ c m) : m.WellFormed := by
  have hc := h.wellFormed
  cases hm with
  | start => exact hc
  | base hform hdef hlink hm =>
    have hσ := hc.substitutes_of_application hform hdef
    exact (hm.grows hc hσ (knows_of_kind? ((hc.links hdef).base hlink).1)).wellFormed
  | @interface _ link _ before after _ _ _ _ _ _ _ hform hdef hlink hbase hbefore hm =>
    have hσ := hc.substitutes_of_application hform hdef
    have hlinks := hc.links hdef
    have hknown : ∀ i ∈ before ++ link :: after, c.knows i = true := fun i hi =>
      knows_of_kind? (hlinks.interfaces (hlink ▸ hi))
    have hfirst := within_substituteBase hc hσ
      (fun b hb => knows_of_kind? (hlinks.base hb).1) fun _ _ _ _ => trivial
    rw [hbase] at hfirst
    have hgrows := hfirst.grows
    have hσ₁ := hσ.mono hgrows.preserves
    have hsecond := within_substituteAll hgrows.wellFormed hσ₁
      (fun i hi => hgrows.preserves.knows (hknown i (List.mem_append_left _ hi)))
      fun _ _ _ _ => trivial
    rw [hbefore] at hsecond
    have hgrows' := hgrows.trans hsecond.grows
    exact (hm.grows hgrows'.wellFormed (hσ.mono hgrows'.preserves)
      (hgrows'.preserves.knows (hknown link (by simp)))).wellFormed
  | @stop _ _ result hrun =>
    have hstep := h.materialize hc₀ hlt
    rw [hrun] at hstep
    cases result with
    | error e => exact hstep.1.wellFormed
    | ok => exact hstep.wellFormed

/-- So it is at every moment of the loop. -/
theorem LoopMoment.wellFormed (h : LoopMoment index c m) (hc₀ : c₀.WellFormed)
    (hprogress : Progress c₀ index c) : m.WellFormed := by
  induction h with
  | here => exact hprogress.wellFormed
  | inside hlt hm => exact hprogress.wellFormed_of_moment hc₀ hlt hm
  | later hlt hstep _ ih =>
    have hnext := hprogress.materialize hc₀ hlt
    rw [hstep] at hnext
    exact ih hnext

end

/-! ## 3. Termination within the limits -/

/-- From every catalogue that can be made, whatever its links are, materialization stops
behind the last type or at its first refusal. It visits no number twice, and no more
numbers than there are types and applications that may still be made. At every moment
there are no more applications than the limit, and none nests deeper than the limit. -/
theorem materialization_within_limits {c : Catalog} (hc : c.Reachable) :
    (∃ visited, Visits 0 c visited (materializeFrom 0 c) ∧ visited.Nodup ∧
      visited.length ≤ c.size + (Limits.applications - c.applicationIds.length)) ∧
    ∀ m, LoopMoment 0 c m → m.applicationIds.length = m.applications.size ∧
      m.applications.size ≤ Limits.applications ∧
      ∀ id ∈ m.applicationIds, m.treeDepth (m.tree id) ≤ Limits.nesting := by
  have hwf := hc.wellFormed
  refine ⟨?_, fun m hm => ?_⟩
  · obtain ⟨visited, hvisits⟩ := exists_visits 0 c
    refine ⟨visited, hvisits, ?_, ?_⟩
    · rw [hvisits.eq_range']
      exact List.nodup_range'
    · rw [hwf.length_applicationIds]
      exact hvisits.length_le
  · have hwf' := hm.wellFormed hwf hwf.progress_zero
    refine ⟨hwf'.length_applicationIds, hwf'.room, fun id _ => ?_⟩
    rw [← hwf'.depth_eq_treeDepth]
    exact hwf'.depth_le id

/-- `Base<B>` and `Node<T> : Base<Node<Node<T>>>`. -/
def runaway : Catalog where
  nodes := #[
    ⟨"Base", .classType, .definition [⟨1⟩], 0, none, []⟩,
    ⟨"B", .classType, .parameter 0, 0, none, []⟩,
    ⟨"Node", .classType, .definition [⟨3⟩], 0, some ⟨5⟩, []⟩,
    ⟨"T", .classType, .parameter 0, 0, none, []⟩,
    ⟨"Node", .classType, .application ⟨2⟩ [⟨2⟩], 1, none, []⟩,
    ⟨"Base", .classType, .application ⟨0⟩ [⟨4⟩], 2, none, []⟩]
  declared := ((∅ : Std.HashMap String TypeId).insertIfNew "Base" ⟨0⟩).insertIfNew "Node" ⟨2⟩
  applications := ((∅ : Std.HashMap (TypeId × List TypeId) TypeId).insert
    (⟨2⟩, [⟨2⟩]) ⟨4⟩).insert (⟨0⟩, [⟨4⟩]) ⟨5⟩

theorem reachable_runaway : runaway.Reachable := by
  have hdeclared := (Reachable.empty.perform (.declare .classType "Base" ["B"])).perform
    (.declare .classType "Node" ["T"])
  have hnode := hdeclared.perform_eq (.instantiate ⟨2⟩ [⟨2⟩]) (congrArg Prod.snd
    (instantiate_new ⟨2⟩ [⟨2⟩] rfl rfl rfl (by decide) (by decide) Std.HashMap.getElem?_empty
      (by decide) (by decide)))
  have hnew : ((∅ : Std.HashMap (TypeId × List TypeId) TypeId).insert (⟨2⟩, [⟨2⟩]) ⟨4⟩)[
      ((⟨0⟩, [⟨4⟩]) : TypeId × List TypeId)]? = none := by simp
  have hroom : ((∅ : Std.HashMap (TypeId × List TypeId) TypeId).insert (⟨2⟩, [⟨2⟩]) ⟨4⟩).size <
      Limits.applications := by simp [Std.HashMap.size_insert, Limits.applications]
  have hbase := hnode.perform_eq (.instantiate ⟨0⟩ [⟨4⟩]) (congrArg Prod.snd
    (instantiate_new ⟨0⟩ [⟨4⟩] rfl rfl rfl (by decide) (by decide) hnew (by decide) hroom))
  exact hbase.perform (.setBase ⟨2⟩ ⟨5⟩)

/-- `Node<...Node<Node<T>>...>`. -/
def nestedNode : Nat → TypeTree
  | 0 => .apply ⟨2⟩ [.leaf ⟨3⟩]
  | n + 1 => .apply ⟨2⟩ [nestedNode n]

theorem areOwnParams_nestedNode (n : Nat) : runaway.areOwnParams ⟨2⟩ [nestedNode n] = false := by
  cases n <;> rfl

theorem treeDepth_nestedNode (n : Nat) : runaway.treeDepth (nestedNode n) = n := by
  induction n with
  | zero => rfl
  | succ n ih => simp [nestedNode, treeDepth, treesDepth, areOwnParams_nestedNode, ih]

theorem tree_runaway : runaway.tree ⟨4⟩ = nestedNode 1 ∧
    runaway.tree ⟨5⟩ = .apply ⟨0⟩ [nestedNode 1] := by
  have hwf := reachable_runaway.wellFormed
  have hT : runaway.tree ⟨3⟩ = .leaf ⟨3⟩ := tree_of_definition?_none rfl
  have hdef : runaway.definition? ⟨2⟩ = some ⟨2⟩ ∧ runaway.args ⟨2⟩ = [⟨3⟩] := ⟨rfl, rfl⟩
  have hnode : runaway.form? ⟨4⟩ = some (.application ⟨2⟩ [⟨2⟩]) := rfl
  have hbase : runaway.form? ⟨5⟩ = some (.application ⟨0⟩ [⟨4⟩]) := rfl
  have htree : runaway.tree ⟨4⟩ = nestedNode 1 := by
    simp [hwf.tree_of_application hnode, hwf.tree_of_definition? hdef.1, hdef.2, hT, nestedNode]
  exact ⟨htree, by simp [hwf.tree_of_application hbase, htree]⟩

/-- There is no end to what `runaway` needs. -/
theorem needed_nestedNode (n : Nat) : Needed runaway (nestedNode (n + 1)) := by
  induction n with
  | zero =>
    rw [← tree_runaway.1]
    exact .present rfl
  | succ n ih =>
    have hlink : runaway.Inherits ⟨2⟩ ⟨5⟩ := .inl rfl
    refine .inherited ih hlink ⟨?_, ?_⟩
    · have hfilled : (runaway.tree ⟨5⟩).replace (filling (runaway.params ⟨2⟩) [nestedNode n]) =
          .apply ⟨0⟩ [nestedNode (n + 2)] := by
        rw [tree_runaway.2]
        rfl
      rw [hfilled]
      exact .arg List.mem_cons_self (.refl _)
    · rw [nestedNode, isApplied, areOwnParams_nestedNode]
      rfl

theorem materializeFrom_runaway : ∃ e m, materializeFrom 0 runaway = (.error e, m) := by
  have hwf := reachable_runaway.wellFormed
  rcases hrun : materializeFrom 0 runaway with ⟨e | _, m⟩
  · exact ⟨e, m, rfl⟩
  · obtain ⟨hexpands, hdone⟩ := hwf.expands_of_ok hrun
    have hdeep := (hexpands.withinLimits hwf hdone).nesting _ (needed_nestedNode Limits.nesting)
    rw [treeDepth_nestedNode] at hdeep
    exact absurd hdeep (Nat.not_succ_le_self _)

/-- What `runaway` needs nests deeper than any bound, and materialization stops at a
refusal after at most 100004 visits. The links of `orderedRound` are a cycle, and it stops there
as well. -/
theorem materialization_within_limits_runaway :
    (runaway.Reachable ∧ ∀ n, ∃ t, Needed runaway t ∧ n < runaway.treeDepth t) ∧
    (∃ visited e m, Visits 0 runaway visited (.error e, m) ∧ visited.Nodup ∧
      visited.length ≤ 100004) ∧
    (orderedRound.Reachable ∧ TransGen orderedRound.DeclaredUnder ⟨0⟩ ⟨0⟩) ∧
    ∃ visited, Visits 0 orderedRound visited (materializeFrom 0 orderedRound) ∧
      visited.Nodup ∧ visited.length ≤ 100003 := by
  have hfirst : DeclaresLink ordered ⟨0⟩ ⟨3⟩ orderedComparable := .interface rfl
  have hsecond : DeclaresLink orderedComparable ⟨1⟩ ⟨0⟩ orderedRound := .interface rfl
  have hround := hsecond.reachable (hfirst.reachable reachable_ordered)
  have hcycle : TransGen orderedRound.DeclaredUnder ⟨0⟩ ⟨0⟩ :=
    .head ⟨⟨3⟩, .inr List.mem_cons_self, rfl⟩ (.single ⟨⟨0⟩, .inr List.mem_cons_self, rfl⟩)
  refine ⟨⟨reachable_runaway, fun n => ⟨_, needed_nestedNode n, ?_⟩⟩, ?_, ⟨hround, hcycle⟩, ?_⟩
  · rw [treeDepth_nestedNode]
    exact Nat.lt_succ_self n
  · obtain ⟨visited, hvisits, hnodup, hlength⟩ :=
      (materialization_within_limits reachable_runaway).1
    obtain ⟨e, m, hrun⟩ := materializeFrom_runaway
    rw [hrun] at hvisits
    exact ⟨visited, e, m, hvisits, hnodup, hlength⟩
  · obtain ⟨visited, hvisits, hnodup, hlength⟩ := (materialization_within_limits hround).1
    exact ⟨visited, hvisits, hnodup, hlength⟩

end Generics.Catalog

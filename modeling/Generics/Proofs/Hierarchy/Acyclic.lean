/-
Generics.Proofs.Hierarchy.Acyclic — no type inherits from itself.

A finished catalogue has links that the search for cycles has never seen: those of
applications, and the inherited interfaces. Along all of them the definitions go
down as they do along declared links, so nothing goes round (`finish_acyclic`).

Two small catalogues come first, with what finishing makes of them: `boxes`, where a
base is substituted, and `pairs`, where two interfaces become one. The theorems about
finished catalogues are tried on them, here and in the modules below.
-/
import Mathlib.Tactic.IntervalCases
import Generics.Proofs.Hierarchy.Interfaces

namespace Generics.Catalog

open Relation

/-! ## 1. Boxes

A generic class with a generic subclass, one application of which is asked for.
Finishing makes the application of the base that this one inherits from. -/

/-- `Box<T>`, `Derived<U> : Box<U>`, `string` and `Derived<string>`. -/
def boxes : Catalog where
  nodes := #[
    ⟨"Box", .classType, .definition [⟨1⟩], 0, none, []⟩,
    ⟨"T", .classType, .parameter 0, 0, none, []⟩,
    ⟨"Derived", .classType, .definition [⟨3⟩], 0, some ⟨4⟩, []⟩,
    ⟨"U", .classType, .parameter 0, 0, none, []⟩,
    ⟨"Box", .classType, .application ⟨0⟩ [⟨3⟩], 1, none, []⟩,
    ⟨"string", .classType, .plain, 0, none, []⟩,
    ⟨"Derived", .classType, .application ⟨2⟩ [⟨5⟩], 1, none, []⟩]
  declared := (((∅ : Std.HashMap String TypeId).insertIfNew "Box" ⟨0⟩).insertIfNew
    "Derived" ⟨2⟩).insertIfNew "string" ⟨5⟩
  applications := ((∅ : Std.HashMap (TypeId × List TypeId) TypeId).insert
    (⟨0⟩, [⟨3⟩]) ⟨4⟩).insert (⟨2⟩, [⟨5⟩]) ⟨6⟩

/-- `boxes` with `Box<string>`. -/
def boxesGrown : Catalog :=
  (boxes.addApplication ⟨0⟩ ⟨"Box", .classType, .definition [⟨1⟩], 0, none, []⟩ [⟨5⟩]).2

/-- `boxes` finished: `Derived<string>` has the base `Box<string>`. -/
def boxesFinished : Catalog :=
  boxesGrown.setNode ⟨6⟩ ⟨"Derived", .classType, .application ⟨2⟩ [⟨5⟩], 1, some ⟨7⟩, []⟩

section

variable {c c' : Catalog} {σ : Substitution} {id d p a : TypeId} {node : Node} {index : Nat}

theorem materializeFrom_step (hlt : index < c.size)
    (h : (materialize ⟨index⟩).run.run c = (.ok (), c')) :
    materializeFrom index c = materializeFrom (index + 1) c' := by
  rw [materializeFrom, if_pos hlt]
  split
  · rename_i hrun
    rw [hrun] at h
    cases h
  · rename_i hrun
    rw [hrun] at h
    cases h
    rfl

/-- Types that are left as they are may be passed over. -/
theorem materializeFrom_skip (count : Nat) (hsize : index + count ≤ c.size)
    (h : ∀ k, index ≤ k → k < index + count → (materialize ⟨k⟩).run.run c = (.ok (), c)) :
    materializeFrom index c = materializeFrom (index + count) c := by
  induction count generalizing index with
  | zero => rfl
  | succ count ih =>
    rw [materializeFrom_step (by omega) (h index (by omega) (by omega)),
      ih (by omega) fun k hk hlt => h k (by omega) (by omega)]
    congr 1
    omega

/-- Substituting into an application to one type parameter. -/
theorem run_substitute_of_parameter (hnode : c.node? id = some node)
    (hform : node.form = .application d [p]) (holder : p.index < id.index)
    (hid : σ.lookup id = none) (hp : σ.lookup p = some a) (hne : a ≠ p) :
    (substitute σ id).run.run c = (instantiate d [a]).run.run c := by
  rw [substitute]
  simp only [hid]
  rw [run_get_bind, hnode]
  simp only [hform, substituteArgs, if_pos holder]
  rw [run_bind, run_bind, substitute, hp]
  show (if [a] = [p] then pure id else instantiate d [a] : Build TypeId).run.run c = _
  rw [if_neg (by simpa using hne)]

/-- An application whose definition has a base and no interfaces gets a base. -/
theorem materialize_of_base {definitionNode : Node} {args : List TypeId} {b b' : TypeId}
    (hnode : c.node? id = some node) (hform : node.form = .application d args)
    (hdefinition : c.node? d = some definitionNode) (hbase : definitionNode.base = some b)
    (hinterfaces : definitionNode.interfaces = [])
    (h : (substitute (definitionNode.params.zip args) b).run.run c = (.ok b', c')) :
    (materialize id).run.run c =
      (.ok (), c'.setNode id { node with base := some b', interfaces := [] }) := by
  have hsubstitute : (substituteBase (definitionNode.params.zip args) (some b)).run.run c =
      (.ok (some b'), c') := by
    rw [substituteBase, run_bind, h]
    rfl
  rw [materialize_run hnode hform hdefinition, substituteLinks, hbase, hinterfaces, run_bind,
    hsubstitute]
  rfl

/-- An application whose definition has one interface and no base gets an interface. -/
theorem materialize_of_interface {definitionNode : Node} {args : List TypeId} {i i' : TypeId}
    (hnode : c.node? id = some node) (hform : node.form = .application d args)
    (hdefinition : c.node? d = some definitionNode) (hbase : definitionNode.base = none)
    (hinterfaces : definitionNode.interfaces = [i])
    (h : (substitute (definitionNode.params.zip args) i).run.run c = (.ok i', c')) :
    (materialize id).run.run c =
      (.ok (), c'.setNode id { node with base := none, interfaces := [i'] }) := by
  have hsubstitute : (substituteAll (definitionNode.params.zip args) [i]).run.run c =
      (.ok [i'], c') := by
    rw [substituteAll, run_bind, h]
    rfl
  have hnone : (substituteBase (definitionNode.params.zip args) none).run.run c = (.ok none, c) :=
    rfl
  rw [materialize_run hnode hform hdefinition, substituteLinks, hbase, hinterfaces, run_bind, hnone]
  simp only
  rw [run_bind, hsubstitute]
  rfl

end

theorem reachable_boxes : boxes.Reachable := by
  have hdeclared := (Reachable.empty.perform (.declare .classType "Box" ["T"])).perform
    (.declare .classType "Derived" ["U"])
  have hbox := hdeclared.perform_eq (.instantiate ⟨0⟩ [⟨3⟩]) (congrArg Prod.snd
    (instantiate_new ⟨0⟩ [⟨3⟩] rfl rfl rfl (by decide) (by decide) Std.HashMap.getElem?_empty
      (by decide) (by decide)))
  have hlinked := (hbox.perform (.setBase ⟨2⟩ ⟨4⟩)).perform (.declare .classType "string" [])
  have happlications : ((∅ : Std.HashMap (TypeId × List TypeId) TypeId).insert
      (⟨0⟩, [⟨3⟩]) ⟨4⟩)[((⟨2⟩, [⟨5⟩]) : TypeId × List TypeId)]? = none := by simp
  have hsize : ((∅ : Std.HashMap (TypeId × List TypeId) TypeId).insert
      (⟨0⟩, [⟨3⟩]) ⟨4⟩).size < Limits.applications := by
    simp [Std.HashMap.size_insert, Limits.applications]
  have hderived := hlinked.perform_eq (.instantiate ⟨2⟩ [⟨5⟩]) (congrArg Prod.snd
    (instantiate_new ⟨2⟩ [⟨5⟩] rfl rfl rfl (by decide) (by decide) happlications (by decide) hsize))
  exact hderived

/-- The base of `Derived<string>` is not there yet and is made. -/
theorem substitute_boxes :
    (substitute [(⟨3⟩, ⟨5⟩)] ⟨4⟩).run.run boxes = (.ok ⟨7⟩, boxesGrown) := by
  rw [run_substitute_of_parameter rfl rfl (by decide) rfl rfl (by decide)]
  exact instantiate_new ⟨0⟩ [⟨5⟩] rfl rfl rfl (by decide) (by decide) (by simp [boxes]) (by decide)
    (by simp [boxes, Std.HashMap.size_insert, Limits.applications])

theorem materializeFrom_boxes : materializeFrom 0 boxes = (.ok (), boxesFinished) := by
  have hbefore : ∀ index < 6, (materialize ⟨index⟩).run.run boxes = (.ok (), boxes) := by
    intro index hlt
    interval_cases index <;> rfl
  have hdefinition : boxes.node? ⟨2⟩ =
    some ⟨"Derived", .classType, .definition [⟨3⟩], 0, some ⟨4⟩, []⟩ := rfl
  have hnode : boxes.node? ⟨6⟩ =
    some ⟨"Derived", .classType, .application ⟨2⟩ [⟨5⟩], 1, none, []⟩ := rfl
  have hderived : (materialize ⟨6⟩).run.run boxes = (.ok (), boxesFinished) :=
    materialize_of_base hnode rfl hdefinition rfl rfl substitute_boxes
  have hboxed : (materialize ⟨7⟩).run.run boxesFinished = (.ok (), boxesFinished) := rfl
  rw [materializeFrom_skip 6 (by decide) fun k _ hk => hbefore k hk,
    materializeFrom_step (by decide) hderived, materializeFrom_step (by decide) hboxed,
    materializeFrom, if_neg (by decide)]

/-- A catalogue is finished once applications have their links and the interfaces solve the
equation of the lists. -/
theorem WellFormed.finish_of_lists {c direct finished : Catalog} (hc : c.WellFormed)
    (hcycle : c.inheritanceCycle? = none) (hrun : materializeFrom 0 c = (.ok (), direct))
    (hdeclared : finished.declared = direct.declared)
    (happlications : finished.applications = direct.applications)
    (hsize : finished.size = direct.size)
    (hlists : ∀ index < direct.size, finished.node? ⟨index⟩ = (direct.node? ⟨index⟩).map fun node =>
      { node with interfaces := (node.interfaces ++ node.interfaces.flatMap finished.interfaces ++
          node.base.toList.flatMap finished.interfaces).eraseDups }) :
    c.finish = .ok ⟨finished⟩ := by
  obtain ⟨hexpands, hdone⟩ := hc.expands_of_ok hrun
  have hmissing : ∀ {id}, direct.node? id = none → finished.node? id = none := fun hnode =>
    Array.getElem?_eq_none_iff.mpr (hsize.le.trans (Array.getElem?_eq_none_iff.mp hnode))
  have hlisted : ∀ {id node}, direct.node? id = some node → finished.node? id = some
      { node with interfaces := (node.interfaces ++ node.interfaces.flatMap finished.interfaces ++
          node.base.toList.flatMap finished.interfaces).eraseDups } := by
    intro id node hnode
    have hlist := hlists id.index (knows_iff.mp (knows_of_node? hnode))
    rwa [hnode, Option.map_some] at hlist
  have hequation : direct.ListsInterfaces finished.interfaces := by
    intro id
    cases hnode : direct.node? id with
    | none => simp [interfaces, base?, hnode, hmissing hnode]
    | some node =>
      rw [interfaces_of_node? (hlisted hnode), interfaces_of_node? hnode, base?, hnode]
      rfl
  have hnodes : finished.nodes = direct.nodes.mapIdx fun index node =>
      { node with interfaces := finished.interfaces ⟨index⟩ } := by
    refine Array.ext_getElem? fun index => ?_
    rw [Array.getElem?_mapIdx]
    show finished.node? ⟨index⟩ = (direct.node? ⟨index⟩).map _
    cases hnode : direct.node? ⟨index⟩ with
    | none => exact hmissing hnode
    | some node =>
      rw [interfaces_of_node? (hlisted hnode), hlisted hnode]
      rfl
  refine finish_eq_ok_iff.mpr ⟨hcycle, direct, hrun, ?_⟩
  rw [hexpands.wellFormed.withInheritedInterfaces_eq (hexpands.acyclic hc hdone hcycle) hequation,
    ← hnodes, ← hdeclared, ← happlications]

/-- Where no type has interfaces, a catalogue is finished once applications have their links. -/
theorem WellFormed.finish_of_nil {c direct : Catalog} (hc : c.WellFormed)
    (hcycle : c.inheritanceCycle? = none) (hrun : materializeFrom 0 c = (.ok (), direct))
    (h : ∀ node ∈ direct.nodes, node.interfaces = []) : c.finish = .ok ⟨direct⟩ := by
  have hnone : ∀ id, direct.interfaces id = [] := by
    intro id
    cases hnode : direct.node? id with
    | none => rw [interfaces, hnode]; rfl
    | some node => rw [interfaces_of_node? hnode, h node (Array.mem_of_getElem? hnode)]
  have hflat : ∀ ids : List TypeId, ids.flatMap direct.interfaces = [] := fun ids =>
    List.flatMap_eq_nil_iff.mpr fun id _ => hnone id
  refine hc.finish_of_lists hcycle hrun rfl rfl rfl fun index _ => ?_
  cases hnode : direct.node? ⟨index⟩ with
  | none => rfl
  | some node =>
    have hempty := h node (Array.mem_of_getElem? hnode)
    simp only [hflat, Option.map_some]
    cases node
    cases hempty
    rfl

/-- No type has a base or interfaces. -/
def Linkless (c : Catalog) : Prop :=
  ∀ node ∈ c.nodes, node.base = none ∧ node.interfaces = []

theorem Linkless.of_node? {c : Catalog} (h : c.Linkless) {id : TypeId} {node : Node}
    (hnode : c.node? id = some node) : node.base = none ∧ node.interfaces = [] :=
  h node (Array.mem_of_getElem? hnode)

theorem Linkless.not_inherits {c : Catalog} (h : c.Linkless) {id link : TypeId} :
    ¬ c.Inherits id link := by
  intro hlink
  obtain ⟨node, hnode, -⟩ := hlink.node?
  obtain ⟨hbase, hinterfaces⟩ := h.of_node? hnode
  rcases hlink with hlink | hlink
  · simp [base?, hnode, hbase] at hlink
  · simp [interfaces, hnode, hinterfaces] at hlink

/-- An application of a definition without links gets none. -/
theorem Linkless.materialize {c : Catalog} (h : c.Linkless) (id : TypeId) :
    (Catalog.materialize id).run.run c = (.ok (), c) := by
  rw [Catalog.materialize, run_get_bind]
  split
  · rfl
  rename_i node hnode
  split
  · split
    · rfl
    rename_i definitionNode hdefinition
    obtain ⟨hbase, hinterfaces⟩ := h.of_node? hdefinition
    have hsame : { node with base := none, interfaces := [] } = node := by
      obtain ⟨hbase', hinterfaces'⟩ := h.of_node? hnode
      cases node
      cases hbase'
      cases hinterfaces'
      rfl
    rw [hbase, hinterfaces]
    show (Except.ok (), c.setNode id { node with base := none, interfaces := [] }) = _
    rw [hsame, setNode_self hnode]
  · rfl

/-- A catalogue without links is finished as it is. -/
theorem WellFormed.finish_of_linkless {c : Catalog} (hc : c.WellFormed) (h : c.Linkless) :
    c.finish = .ok ⟨c⟩ := by
  have hcycle : c.inheritanceCycle? = none := by
    refine hc.inheritanceCycle?_eq_none_iff.mpr fun id hpath => ?_
    obtain ⟨_, ⟨link, hlink, -⟩, -⟩ := TransGen.head'_iff.mp hpath
    exact h.not_inherits hlink
  have hrun : ∀ index, materializeFrom index c = (.ok (), c) := by
    intro index
    induction hleft : c.size - index generalizing index with
    | zero => rw [materializeFrom, if_neg (by omega)]
    | succ left ih => rw [materializeFrom_step (by omega) (h.materialize _), ih _ (by omega)]
  exact hc.finish_of_nil hcycle (hrun 0) fun node hnode => (h node hnode).2

/-- The only declared link is that of `Derived<U>` to `Box<U>`. -/
theorem inherits_boxes {id link : TypeId} (hlink : boxes.Inherits id link) :
    id = ⟨2⟩ ∧ link = ⟨4⟩ := by
  obtain ⟨index⟩ := id
  obtain ⟨node, hnode, -⟩ := hlink.node?
  have hbound : index < 7 := knows_iff.mp (knows_of_node? hnode)
  interval_cases index <;> simp [Inherits, base?, interfaces, node?, boxes, eq_comm] at hlink ⊢
  exact hlink

theorem inheritanceCycle?_boxes : boxes.inheritanceCycle? = none :=
  reachable_boxes.wellFormed.inheritanceCycle?_eq_none_of_lt (by decide)

theorem finish_boxes : boxes.finish = .ok ⟨boxesFinished⟩ :=
  reachable_boxes.wellFormed.finish_of_nil inheritanceCycle?_boxes materializeFrom_boxes
    (by decide)

/-! ## 2. Pairs

A generic class that implements one generic interface for each of its parameters,
and an application to the same type twice. Finishing makes the base and one
application of the interface, which the application is linked to for both. -/

/-- `Box<T>`, the interface `Key<K>`, `Pair<A, B> : Box<A>, Key<A>, Key<B>`, `string` and
`Pair<string, string>`. -/
def pairs : Catalog where
  nodes := #[
    ⟨"Box", .classType, .definition [⟨1⟩], 0, none, []⟩,
    ⟨"T", .classType, .parameter 0, 0, none, []⟩,
    ⟨"Key", .interfaceType, .definition [⟨3⟩], 0, none, []⟩,
    ⟨"K", .classType, .parameter 0, 0, none, []⟩,
    ⟨"Pair", .classType, .definition [⟨5⟩, ⟨6⟩], 0, some ⟨7⟩, [⟨8⟩, ⟨9⟩]⟩,
    ⟨"A", .classType, .parameter 0, 0, none, []⟩,
    ⟨"B", .classType, .parameter 1, 0, none, []⟩,
    ⟨"Box", .classType, .application ⟨0⟩ [⟨5⟩], 1, none, []⟩,
    ⟨"Key", .interfaceType, .application ⟨2⟩ [⟨5⟩], 1, none, []⟩,
    ⟨"Key", .interfaceType, .application ⟨2⟩ [⟨6⟩], 1, none, []⟩,
    ⟨"string", .classType, .plain, 0, none, []⟩,
    ⟨"Pair", .classType, .application ⟨4⟩ [⟨10⟩, ⟨10⟩], 1, none, []⟩]
  declared := ((((∅ : Std.HashMap String TypeId).insertIfNew "Box" ⟨0⟩).insertIfNew
    "Key" ⟨2⟩).insertIfNew "Pair" ⟨4⟩).insertIfNew "string" ⟨10⟩
  applications := ((((∅ : Std.HashMap (TypeId × List TypeId) TypeId).insert
    (⟨0⟩, [⟨5⟩]) ⟨7⟩).insert (⟨2⟩, [⟨5⟩]) ⟨8⟩).insert (⟨2⟩, [⟨6⟩]) ⟨9⟩).insert
    (⟨4⟩, [⟨10⟩, ⟨10⟩]) ⟨11⟩

/-- The definition `Pair<A, B>`. -/
def pairDefinition : Node :=
  ⟨"Pair", .classType, .definition [⟨5⟩, ⟨6⟩], 0, some ⟨7⟩, [⟨8⟩, ⟨9⟩]⟩

/-- `string` for both parameters of `Pair<A, B>`. -/
def strings : Substitution :=
  pairDefinition.params.zip [⟨10⟩, ⟨10⟩]

/-- `pairs` with `Box<string>`. -/
def pairsBoxed : Catalog :=
  (pairs.addApplication ⟨0⟩ ⟨"Box", .classType, .definition [⟨1⟩], 0, none, []⟩ [⟨10⟩]).2

/-- `pairs` with `Box<string>` and `Key<string>`. -/
def pairsKeyed : Catalog :=
  (pairsBoxed.addApplication ⟨2⟩ ⟨"Key", .interfaceType, .definition [⟨3⟩], 0, none, []⟩ [⟨10⟩]).2

/-- `pairs` with all links: `Pair<string, string>` has got `Key<string>` twice. -/
def pairsLinked : Catalog :=
  pairsKeyed.setNode ⟨11⟩
    ⟨"Pair", .classType, .application ⟨4⟩ [⟨10⟩, ⟨10⟩], 1, some ⟨12⟩, [⟨13⟩, ⟨13⟩]⟩

/-- `pairs` finished. -/
def pairsFinished : Catalog :=
  pairsLinked.withInheritedInterfaces

theorem reachable_pairs : pairs.Reachable := by
  have hnew₁ : ((∅ : Std.HashMap (TypeId × List TypeId) TypeId).insert (⟨0⟩, [⟨5⟩]) ⟨7⟩)[
      ((⟨2⟩, [⟨5⟩]) : TypeId × List TypeId)]? = none := by simp
  have hnew₂ : (((∅ : Std.HashMap (TypeId × List TypeId) TypeId).insert (⟨0⟩, [⟨5⟩]) ⟨7⟩).insert
      (⟨2⟩, [⟨5⟩]) ⟨8⟩)[((⟨2⟩, [⟨6⟩]) : TypeId × List TypeId)]? = none := by simp
  have hnew₃ : ((((∅ : Std.HashMap (TypeId × List TypeId) TypeId).insert (⟨0⟩, [⟨5⟩]) ⟨7⟩).insert
      (⟨2⟩, [⟨5⟩]) ⟨8⟩).insert (⟨2⟩, [⟨6⟩]) ⟨9⟩)[
      ((⟨4⟩, [⟨10⟩, ⟨10⟩]) : TypeId × List TypeId)]? = none := by simp
  have hroom : ((∅ : Std.HashMap (TypeId × List TypeId) TypeId).insert (⟨0⟩, [⟨5⟩]) ⟨7⟩).size <
      Limits.applications ∧
      (((∅ : Std.HashMap (TypeId × List TypeId) TypeId).insert (⟨0⟩, [⟨5⟩]) ⟨7⟩).insert
        (⟨2⟩, [⟨5⟩]) ⟨8⟩).size < Limits.applications ∧
      ((((∅ : Std.HashMap (TypeId × List TypeId) TypeId).insert (⟨0⟩, [⟨5⟩]) ⟨7⟩).insert
        (⟨2⟩, [⟨5⟩]) ⟨8⟩).insert (⟨2⟩, [⟨6⟩]) ⟨9⟩).size < Limits.applications := by
    simp [Std.HashMap.size_insert, Limits.applications]
  have hdeclared := ((Reachable.empty.perform (.declare .classType "Box" ["T"])).perform
    (.declare .interfaceType "Key" ["K"])).perform (.declare .classType "Pair" ["A", "B"])
  have hbox := hdeclared.perform_eq (.instantiate ⟨0⟩ [⟨5⟩]) (congrArg Prod.snd
    (instantiate_new ⟨0⟩ [⟨5⟩] rfl rfl rfl (by decide) (by decide) Std.HashMap.getElem?_empty
      (by decide) (by decide)))
  have hfirst := hbox.perform_eq (.instantiate ⟨2⟩ [⟨5⟩]) (congrArg Prod.snd
    (instantiate_new ⟨2⟩ [⟨5⟩] rfl rfl rfl (by decide) (by decide) hnew₁ (by decide) hroom.1))
  have hsecond := hfirst.perform_eq (.instantiate ⟨2⟩ [⟨6⟩]) (congrArg Prod.snd
    (instantiate_new ⟨2⟩ [⟨6⟩] rfl rfl rfl (by decide) (by decide) hnew₂ (by decide) hroom.2.1))
  have hlinked := (((hsecond.perform (.setBase ⟨4⟩ ⟨7⟩)).perform (.addInterface ⟨4⟩ ⟨8⟩)).perform
    (.addInterface ⟨4⟩ ⟨9⟩)).perform (.declare .classType "string" [])
  have hpair := hlinked.perform_eq (.instantiate ⟨4⟩ [⟨10⟩, ⟨10⟩]) (congrArg Prod.snd
    (instantiate_new ⟨4⟩ [⟨10⟩, ⟨10⟩] rfl rfl rfl (by decide) (by decide) hnew₃ (by decide)
      hroom.2.2))
  exact hpair

/-- The base of `Pair<string, string>` and its first interface are made, and the second
interface is found to be the first. -/
theorem substituteLinks_pairs :
    (substituteLinks strings pairDefinition).run.run pairs =
      (.ok (some ⟨12⟩, [⟨13⟩, ⟨13⟩]), pairsKeyed) := by
  have hbox : (substitute strings ⟨7⟩).run.run pairs = (.ok ⟨12⟩, pairsBoxed) := by
    rw [run_substitute_of_parameter rfl rfl (by decide) rfl rfl (by decide)]
    exact instantiate_new ⟨0⟩ [⟨10⟩] rfl rfl rfl (by decide) (by decide) (by simp [pairs])
      (by decide) (by simp [pairs, Std.HashMap.size_insert, Limits.applications])
  have hkey : (substitute strings ⟨8⟩).run.run pairsBoxed = (.ok ⟨13⟩, pairsKeyed) := by
    rw [run_substitute_of_parameter rfl rfl (by decide) rfl rfl (by decide)]
    exact instantiate_new ⟨2⟩ [⟨10⟩] rfl rfl rfl (by decide) (by decide)
      (by simp [pairsBoxed, addApplication, pairs]) (by decide)
      (by simp [pairsBoxed, addApplication, pairs, Std.HashMap.size_insert, Limits.applications])
  have hagain : (substitute strings ⟨9⟩).run.run pairsKeyed = (.ok ⟨13⟩, pairsKeyed) := by
    rw [run_substitute_of_parameter rfl rfl (by decide) rfl rfl (by decide)]
    exact run_instantiate_of_indexed rfl rfl rfl (by decide) (by decide)
      Std.HashMap.getElem?_insert_self
  have hbase : (substituteBase strings pairDefinition.base).run.run pairs =
      (.ok (some ⟨12⟩), pairsBoxed) := by
    rw [show pairDefinition.base = some ⟨7⟩ from rfl, substituteBase, run_bind, hbox]
    rfl
  have hkeys : (substituteAll strings pairDefinition.interfaces).run.run pairsBoxed =
      (.ok [⟨13⟩, ⟨13⟩], pairsKeyed) := by
    rw [show pairDefinition.interfaces = [⟨8⟩, ⟨9⟩] from rfl, substituteAll, run_bind, hkey]
    simp only
    rw [substituteAll, run_bind, run_bind, hagain]
    rfl
  rw [substituteLinks, run_bind, hbase]
  simp only
  rw [run_bind, hkeys]
  rfl

theorem materializeFrom_pairs : materializeFrom 0 pairs = (.ok (), pairsLinked) := by
  have hbefore : ∀ index < 11, (materialize ⟨index⟩).run.run pairs = (.ok (), pairs) := by
    intro index hlt
    interval_cases index <;> rfl
  have hpair : (materialize ⟨11⟩).run.run pairs = (.ok (), pairsLinked) := by
    have hnode : pairs.node? ⟨11⟩ =
      some ⟨"Pair", .classType, .application ⟨4⟩ [⟨10⟩, ⟨10⟩], 1, none, []⟩ := rfl
    have hdefinition : pairs.node? ⟨4⟩ = some pairDefinition := rfl
    rw [materialize_run hnode rfl hdefinition, ← strings, substituteLinks_pairs]
    rfl
  have hboxed : (materialize ⟨12⟩).run.run pairsLinked = (.ok (), pairsLinked) := rfl
  have hkeyed : (materialize ⟨13⟩).run.run pairsLinked = (.ok (), pairsLinked) := rfl
  rw [materializeFrom_skip 11 (by decide) fun k _ hk => hbefore k hk,
    materializeFrom_step (by decide) hpair, materializeFrom_step (by decide) hboxed,
    materializeFrom_step (by decide) hkeyed, materializeFrom, if_neg (by decide)]

theorem inherits_pairs {id link : TypeId} (hlink : pairs.Inherits id link) :
    id = ⟨4⟩ ∧ (link = ⟨7⟩ ∨ link = ⟨8⟩ ∨ link = ⟨9⟩) := by
  obtain ⟨index⟩ := id
  obtain ⟨node, hnode, -⟩ := hlink.node?
  have hbound : index < 12 := knows_iff.mp (knows_of_node? hnode)
  interval_cases index <;> simp [Inherits, base?, interfaces, node?, pairs, eq_comm] at hlink ⊢
  exact hlink

theorem finish_pairs : pairs.finish = .ok ⟨pairsFinished⟩ :=
  finish_eq_ok_iff.mpr ⟨reachable_pairs.wellFormed.inheritanceCycle?_eq_none_of_lt (by decide),
    pairsLinked, materializeFrom_pairs, rfl⟩

/-- Of the two equal interfaces of `Pair<string, string>` one is listed, and nothing else
changes. -/
theorem pairsFinished_eq :
    pairsFinished = pairsLinked.setNode ⟨11⟩
      ⟨"Pair", .classType, .application ⟨4⟩ [⟨10⟩, ⟨10⟩], 1, some ⟨12⟩, [⟨13⟩]⟩ := by
  have hc := reachable_pairs.wellFormed
  have hfinish : pairs.finish = .ok ⟨pairsLinked.setNode ⟨11⟩
      ⟨"Pair", .classType, .application ⟨4⟩ [⟨10⟩, ⟨10⟩], 1, some ⟨12⟩, [⟨13⟩]⟩⟩ :=
    hc.finish_of_lists (hc.inheritanceCycle?_eq_none_of_lt (by decide)) materializeFrom_pairs
      rfl rfl rfl (by decide)
  exact congrArg Hierarchy.catalog (Except.ok.inj (finish_pairs.symm.trans hfinish))

/-! ## 3. Finished catalogues -/

/-- What a type inherits from, directly or not, has another definition. -/
theorem WellFormed.unbound_ne {c : Catalog} {h : Hierarchy} {a b : TypeId} (hc : c.WellFormed)
    (hfinish : c.finish = .ok h) (hpath : TransGen h.catalog.Inherits a b) :
    h.catalog.unbound a ≠ h.catalog.unbound b := by
  obtain ⟨hcycle, direct, hrun, rfl⟩ := finish_eq_ok_iff.mp hfinish
  obtain ⟨hexpands, hdone⟩ := hc.expands_of_ok hrun
  have hacyclic := hexpands.acyclic hc hdone hcycle
  have hdirect : TransGen direct.Inherits a b :=
    TransGen.closed (fun x y hxy => hexpands.wellFormed.transGen_of_inherits hacyclic hxy) _ _
      hpath
  have hdown : TransGen c.DeclaredUnder (direct.unbound a) (direct.unbound b) :=
    hdirect.lift direct.unbound fun x y hxy => hexpands.declaredUnder hc (hdone x) hxy
  intro heq
  simp only [unbound_withInheritedInterfaces] at heq
  rw [heq] at hdown
  exact hc.inheritanceCycle?_eq_none_iff.mp hcycle _ hdown

theorem WellFormed.not_inherits_itself {c : Catalog} {h : Hierarchy} (hc : c.WellFormed)
    (hfinish : c.finish = .ok h) (id : TypeId) : ¬ TransGen h.catalog.Inherits id id :=
  fun hpath => hc.unbound_ne hfinish hpath rfl

/-- In a finished catalogue no type inherits from itself, through bases and
listed interfaces, whether it was declared, asked for, or made on the way. And
the links that an application has got before interfaces are listed have the
definitions of those that its definition declares. -/
theorem finish_acyclic {c : Catalog} {h : Hierarchy} (hc : c.Reachable)
    (hfinish : c.finish = .ok h) :
    (∀ id, ¬ TransGen h.catalog.Inherits id id) ∧
      ∃ direct, materializeFrom 0 c = (.ok (), direct) ∧
        h.catalog = direct.withInheritedInterfaces ∧
        ∀ id definition args, h.catalog.form? id = some (.application definition args) →
          ∀ link, direct.Inherits id link →
            ∃ declared, c.Inherits definition declared ∧
              h.catalog.unbound link = c.unbound declared := by
  obtain ⟨-, direct, hrun, rfl⟩ := finish_eq_ok_iff.mp hfinish
  obtain ⟨hexpands, hdone⟩ := hc.wellFormed.expands_of_ok hrun
  refine ⟨hc.wellFormed.not_inherits_itself hfinish, direct, hrun, rfl, ?_⟩
  intro id d args hform link hlink
  rw [form?_withInheritedInterfaces] at hform
  obtain ⟨declared, hdeclared, heq⟩ :=
    hexpands.declared_of_application hc.wellFormed (hdone id) hform hlink
  have hknown := (hexpands.wellFormed.knows_of_inherits hlink).1
  exact ⟨declared, hdeclared,
    ((preserves_withInheritedInterfaces direct).unbound hknown).trans heq⟩

/-- `Derived<string>` has got the base `Box<string>`, and nothing goes round. -/
theorem finish_acyclic_boxes :
    (boxes.Reachable ∧ boxes.finish = .ok ⟨boxesFinished⟩) ∧
      (∀ id, ¬ TransGen boxesFinished.Inherits id id) ∧
      ∃ declared, boxes.Inherits ⟨2⟩ declared ∧
        boxesFinished.unbound ⟨7⟩ = boxes.unbound declared := by
  obtain ⟨hacyclic, direct, hrun, -, hlinks⟩ := finish_acyclic reachable_boxes finish_boxes
  cases materializeFrom_boxes.symm.trans hrun
  exact ⟨⟨reachable_boxes, finish_boxes⟩, hacyclic, hlinks ⟨6⟩ ⟨2⟩ [⟨5⟩] rfl ⟨7⟩ (.inl rfl)⟩

end Generics.Catalog

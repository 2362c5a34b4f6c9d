/-
Generics.Proofs.Hierarchy.Materialization — applications get the links of their
definitions.

Materialization goes through a list that it makes longer itself. What it needs
is fixed beforehand: `Needed` is the least set of applications that has those of
the catalogue and everything that is inherited, directly or not, by one of its
members. `Expands` says what a catalogue in the middle of the work may look
like, and `Progress` that the types below an index have their links. One step
moves the index by one (`Progress.materialize`), so the whole run either gives
every application its links or is refused because of a needed type beyond a
limit (`Progress.materializeFrom`).
-/
import Generics.Hierarchy
import Generics.Proofs.Catalog.Substitution

namespace Generics.Catalog

open TypeTree

/-! ## 1. Links -/

/-- `link` is the base or one of the interfaces of `id`. -/
def Inherits (c : Catalog) (id link : TypeId) : Prop :=
  c.base? id = some link ∨ link ∈ c.interfaces id

section

variable {c c' : Catalog} {id link : TypeId} {node : Node}

theorem base?_of_node? (h : c.node? id = some node) : c.base? id = node.base := by
  rw [base?, h]; rfl

theorem interfaces_of_node? (h : c.node? id = some node) : c.interfaces id = node.interfaces := by
  rw [interfaces, h]; rfl

theorem Inherits.node? (h : c.Inherits id link) : ∃ node, c.node? id = some node ∧
    (node.base = some link ∨ link ∈ node.interfaces) := by
  cases hnode : c.node? id with
  | none =>
    rw [Inherits, base?, interfaces, hnode] at h
    rcases h with h | h <;> cases h
  | some node =>
    rw [Inherits, base?_of_node? hnode, interfaces_of_node? hnode] at h
    exact ⟨node, rfl, h⟩

theorem inherits_of_node? (h : c.node? id = some node) :
    c.Inherits id link ↔ node.base = some link ∨ link ∈ node.interfaces := by
  rw [Inherits, base?_of_node? h, interfaces_of_node? h]

/-- An interface is not a type parameter. -/
theorem WellFormed.not_isParameter (hc : c.WellFormed)
    (h : c.kind? id = some .interfaceType) : c.isParameter id = false := by
  refine Bool.eq_false_iff.mpr fun hparam => ?_
  obtain ⟨position, hform⟩ := isParameter_iff.mp hparam
  obtain ⟨node, hnode, hform'⟩ := form?_eq_some.mp hform
  have hfits := hc.forms hnode
  rw [FormFits, hform'] at hfits
  rw [kind?, hnode, Option.map_some, hfits.2] at h
  cases h

theorem WellFormed.kind?_of_mem_interfaces (hc : c.WellFormed) (hmem : link ∈ c.interfaces id) :
    c.kind? link = some .interfaceType := by
  have hlink : c.Inherits id link := .inr hmem
  obtain ⟨node, hnode, -⟩ := hlink.node?
  rw [interfaces_of_node? hnode] at hmem
  exact (hc.links hnode).interfaces hmem

/-- A link leads to a known type that is not a type parameter. -/
theorem WellFormed.knows_of_inherits (hc : c.WellFormed) (h : c.Inherits id link) :
    c.knows link = true ∧ c.isParameter link = false := by
  rcases h with hbase | hmem
  · obtain ⟨node, hnode, hnbase⟩ := Option.bind_eq_some_iff.mp hbase
    obtain ⟨hkind, hparam⟩ := (hc.links hnode).base hnbase
    exact ⟨knows_of_kind? hkind, hparam⟩
  · have hkind := hc.kind?_of_mem_interfaces hmem
    exact ⟨knows_of_kind? hkind, hc.not_isParameter hkind⟩

/-- A type parameter inherits nothing. -/
theorem WellFormed.not_isParameter_of_inherits (hc : c.WellFormed) (h : c.Inherits id link) :
    c.isParameter id = false := by
  obtain ⟨node, hnode, hlink⟩ := h.node?
  refine Bool.eq_false_iff.mpr fun hparam => ?_
  rw [isParameter, hnode] at hparam
  obtain ⟨hbase, hinterfaces⟩ := (hc.links hnode).ofParameter hparam
  rw [hbase, hinterfaces] at hlink
  rcases hlink with h | h <;> cases h

/-- An application is of the kind of its definition. -/
theorem WellFormed.kind?_unbound (hc : c.WellFormed) (id : TypeId) :
    c.kind? (c.unbound id) = c.kind? id := by
  cases hdef : c.definition? id with
  | none => rw [unbound, hdef]; rfl
  | some d =>
    rw [unbound, hdef, Option.getD_some]
    rcases definition?_eq_some hdef with ⟨params, -, rfl⟩ | ⟨args, hform⟩
    · rfl
    · obtain ⟨node, hnode, happ⟩ := hc.appliedTo hform
      rw [happ.kind, kind?, hnode]
      rfl

/-- Substituting into a type that is not a type parameter keeps its definition,
and the type itself if it has none. So it does not make it a type parameter. -/
theorem WellFormed.unbound_of_substituted (hc : c.WellFormed) {σ : Substitution}
    (hσ : c.Substitutes σ) {l r : TypeId} (hl : c.isParameter l = false)
    (htree : c.tree r = c.substitutedTree σ l) :
    c.unbound r = c.unbound l ∧ c.isParameter r = false := by
  cases hdef : c.definition? l with
  | none =>
    have hlookup : σ.lookup l = none := by
      cases hlookup : σ.lookup l with
      | none => rfl
      | some a =>
        rw [(hσ hlookup).1] at hl
        cases hl
    rw [substitutedTree_of_definition?_none hdef, assigned, hlookup] at htree
    rw [hc.eq_of_tree_eq_leaf htree]
    exact ⟨rfl, hl⟩
  | some d =>
    rw [hc.substitutedTree_of_definition? hdef] at htree
    obtain ⟨hdef', -⟩ := hc.definition?_of_tree htree
    refine ⟨by rw [unbound, unbound, hdef, hdef', Option.getD_some, Option.getD_some], ?_⟩
    refine Bool.eq_false_iff.mpr fun hparam => ?_
    rw [definition?_of_isParameter hparam] at hdef'
    cases hdef'

end

/-! ## 2. What has to be there -/

/-- The applications that a finished catalogue needs: those it has, and those
that occur in what one of them inherits, with its arguments for the parameters
of its definition. -/
inductive Needed (c : Catalog) : TypeTree → Prop
  | present {id definition : TypeId} {args : List TypeId}
      (h : c.form? id = some (.application definition args)) : Needed c (c.tree id)
  | inherited {definition link : TypeId} {args : List TypeTree} {u : TypeTree}
      (h : Needed c (.apply definition args)) (hlink : c.Inherits definition link)
      (hu : c.AppliedPart ((c.tree link).replace (filling (c.params definition) args)) u) :
      Needed c u

/-- A substitution of arguments for parameters fills them in, as trees. -/
theorem assigned_zip (c : Catalog) (params args : List TypeId) :
    c.assigned (params.zip args) = filling params (args.map c.tree) := by
  funext p
  unfold assigned filling
  congr 1
  induction params generalizing args with
  | nil => rfl
  | cons q params ih =>
    cases args with
    | nil => rfl
    | cons a args =>
      simp only [List.zip_cons_cons, List.map_cons, List.lookup_cons]
      split
      · rfl
      · exact ih args

/-- The arguments of a type for the parameters of its definition. -/
theorem WellFormed.substitutes_zip {c : Catalog} (hc : c.WellFormed) {definition : TypeId}
    {params args : List TypeId} (hform : c.form? definition = some (.definition params))
    (hargs : ∀ a ∈ args, c.knows a = true) : c.Substitutes (params.zip args) := by
  intro p a hlookup
  obtain ⟨before, after, hzip, -⟩ := List.lookup_eq_some_iff.mp hlookup
  have hmem : (p, a) ∈ params.zip args := by rw [hzip]; simp
  obtain ⟨hp, ha⟩ := List.of_mem_zip hmem
  exact ⟨hc.isParameter_of_mem_params hform hp, hargs a ha⟩

/-- The definition of an application, and its arguments for the parameters. -/
theorem WellFormed.node?_definition {c : Catalog} (hc : c.WellFormed) {id definition : TypeId}
    {node : Node} {args : List TypeId} (hnode : c.node? id = some node)
    (hform : node.form = .application definition args) :
    ∃ definitionNode, c.node? definition = some definitionNode ∧
      definitionNode.isApplication = false ∧ node.kind = definitionNode.kind ∧
      c.Substitutes (definitionNode.params.zip args) := by
  obtain ⟨_, hnode', happ⟩ := hc.appliedTo (form?_eq_some.mpr ⟨node, hnode, hform⟩)
  cases hnode.symm.trans hnode'
  obtain ⟨params, hparams⟩ := isDefinition_iff.mp happ.isDefinition
  obtain ⟨definitionNode, hdef, hdefForm⟩ := form?_eq_some.mp hparams
  refine ⟨definitionNode, hdef, by rw [Node.isApplication, hdefForm], ?_, ?_⟩
  · have hkind := happ.kind
    rw [kind?, hdef] at hkind
    exact (Option.some.inj hkind).symm
  · rw [show definitionNode.params = params by rw [Node.params, hdefForm]]
    exact hc.substitutes_zip hparams fun a ha =>
      knows_of_lt (knows_of_node? hnode) (happ.args_older a ha)

/-! ## 3. Substituted links -/

/-- The links `base` and `interfaces` are those of `node` after substitution. -/
structure LinkedAs (c : Catalog) (σ : Substitution) (node : Node) (base : Option TypeId)
    (interfaces : List TypeId) : Prop where
  base : base.map c.tree = node.base.map (c.substitutedTree σ)
  interfaces : interfaces.map c.tree = node.interfaces.map (c.substitutedTree σ)

/-- The links of a node after substitution. -/
def substituteLinks (σ : Substitution) (node : Node) : Build (Option TypeId × List TypeId) := do
  let base ← substituteBase σ node.base
  let interfaces ← substituteAll σ node.interfaces
  return (base, interfaces)

section

variable {X : TypeTree → Prop} {c c' : Catalog} {σ : Substitution} {node : Node}
  {base : Option TypeId} {interfaces : List TypeId}

theorem LinkedAs.of_base (h : c.LinkedAs σ node base interfaces) {b : TypeId}
    (hb : base = some b) : ∃ l, node.base = some l ∧ c.tree b = c.substitutedTree σ l := by
  have hbase := h.base
  rw [hb, Option.map_some] at hbase
  obtain ⟨l, hl, htree⟩ := Option.map_eq_some_iff.mp hbase.symm
  exact ⟨l, hl, htree.symm⟩

theorem LinkedAs.of_interface (h : c.LinkedAs σ node base interfaces) {i : TypeId}
    (hi : i ∈ interfaces) : ∃ l ∈ node.interfaces, c.tree i = c.substitutedTree σ l := by
  have hmem : c.tree i ∈ node.interfaces.map (c.substitutedTree σ) := by
    rw [← h.interfaces]
    exact List.mem_map_of_mem hi
  obtain ⟨l, hl, htree⟩ := List.mem_map.mp hmem
  exact ⟨l, hl, htree.symm⟩

/-- Links stay what they are while the catalogue grows. -/
theorem LinkedAs.mono (h : c.LinkedAs σ node base interfaces) (hp : c.Preserves c')
    (hσ : c.Substitutes σ) (hlinks : c.LinksFit node)
    (hbase : ∀ b, base = some b → c.knows b = true)
    (hinterfaces : ∀ i ∈ interfaces, c.knows i = true) :
    c'.LinkedAs σ node base interfaces where
  base := by
    rw [Option.map_congr fun b hb => hp.tree (hbase b hb), h.base]
    exact Option.map_congr fun b hb =>
      (substitutedTree_eq hσ hp (knows_of_kind? (hlinks.base hb).1)).symm
  interfaces := by
    rw [List.map_congr_left fun i hi => hp.tree (hinterfaces i hi), h.interfaces]
    exact List.map_congr_left fun i hi =>
      (substitutedTree_eq hσ hp (knows_of_kind? (hlinks.interfaces hi))).symm

/-- The links of a definition after substitution fit its applications. -/
theorem LinkedAs.linksFit (h : c.LinkedAs σ node base interfaces) (hc : c.WellFormed)
    (hσ : c.Substitutes σ) (hlinks : c.LinksFit node) {application : Node}
    (hkind : application.kind = node.kind) (hform : application.isParameter = false) :
    c.LinksFit { application with base, interfaces } where
  base := by
    intro b hb
    obtain ⟨l, hl, htree⟩ := h.of_base hb
    obtain ⟨hclass, hparam⟩ := hlinks.base hl
    obtain ⟨hunbound, hparam'⟩ := hc.unbound_of_substituted hσ hparam htree
    refine ⟨?_, hparam'⟩
    rw [← hc.kind?_unbound, hunbound, hc.kind?_unbound, hclass]
  interfaces := by
    intro i hi
    obtain ⟨l, hl, htree⟩ := h.of_interface hi
    have hinterface := hlinks.interfaces hl
    obtain ⟨hunbound, -⟩ := hc.unbound_of_substituted hσ (hc.not_isParameter hinterface) htree
    rw [← hc.kind?_unbound, hunbound, hc.kind?_unbound, hinterface]
  ofInterface := by
    intro hk
    have hbase := h.base
    rw [hlinks.ofInterface (hkind.symm.trans hk)] at hbase
    exact Option.map_eq_none_iff.mp hbase
  ofParameter := by
    intro hp
    have hp' : application.isParameter = true := hp
    rw [hform] at hp'
    cases hp'

theorem within_substituteLinks (hc : c.WellFormed) (hσ : c.Substitutes σ)
    (hlinks : c.LinksFit node)
    (hX : ∀ l, node.base = some l ∨ l ∈ node.interfaces →
      ∀ u, c.AppliedPart (c.substitutedTree σ l) u → X u) :
    Within X c (fun links c' => c'.LinkedAs σ node links.1 links.2)
      ((substituteLinks σ node).run.run c) := by
  have hbase : ∀ b, node.base = some b → c.knows b = true := fun b hb =>
    knows_of_kind? (hlinks.base hb).1
  have hinterfaces : ∀ i ∈ node.interfaces, c.knows i = true := fun i hi =>
    knows_of_kind? (hlinks.interfaces hi)
  refine .bind (within_substituteBase hc hσ hbase fun b hb => hX b (.inl hb)) ?_
  intro base c₁ hgrows hQ
  have heq : ∀ {l}, c.knows l = true → c₁.substitutedTree σ l = c.substitutedTree σ l :=
    fun hl => substitutedTree_eq hσ hgrows.preserves hl
  refine .bind (within_substituteAll hgrows.wellFormed (hσ.mono hgrows.preserves)
    (fun i hi => hgrows.preserves.knows (hinterfaces i hi)) ?_) ?_
  · intro i hi u hu
    rw [hgrows.appliedPart_iff, heq (hinterfaces i hi)] at hu
    exact hX i (.inr hi) u hu
  · intro interfaces c₂ hgrows' hQ'
    have hp := hgrows.preserves.trans hgrows'.preserves
    refine .pure hgrows'.wellFormed ⟨?_, ?_⟩
    · rw [Option.map_congr fun b hb => hgrows'.preserves.tree (hQ.1 b hb), hQ.2]
      exact Option.map_congr fun b hb => (substitutedTree_eq hσ hp (hbase b hb)).symm
    · rw [hQ'.2]
      refine List.map_congr_left fun i hi => ?_
      rw [heq (hinterfaces i hi), substitutedTree_eq hσ hp (hinterfaces i hi)]

end

/-! ## 4. Catalogues in the middle of the work -/

/-- An application has the links of its definition, with its arguments for the
parameters. -/
def Materialized (c : Catalog) (id : TypeId) : Prop :=
  ∀ ⦃node definition args⦄, c.node? id = some node → node.form = .application definition args →
    ∀ ⦃definitionNode⦄, c.node? definition = some definitionNode →
      c.LinkedAs (definitionNode.params.zip args) definitionNode node.base node.interfaces

/-- `c` is `c₀` with further applications and other links of applications, and
has no application that is not needed. -/
structure Expands (c₀ c : Catalog) : Prop where
  wellFormed : c.WellFormed
  preserves : c₀.Preserves c
  kept : ∀ {id node}, c₀.node? id = some node → node.isApplication = false →
    c.node? id = some node
  added : ∀ {id node}, c.node? id = some node → c₀.knows id = false → node.isApplication = true
  needed : ∀ {id node}, c.node? id = some node → node.isApplication = true → Needed c₀ (c.tree id)
  declared : c.declared = c₀.declared

/-- Other links of an application leave the types alone that are none. -/
theorem node?_setNode_of_not_application {c : Catalog} {id other : TypeId} {node node' n : Node}
    (hnode : c.node? id = some node) (happ : node.isApplication = true)
    (hn : c.node? other = some n) (hnot : n.isApplication = false) :
    (c.setNode id node').node? other = some n := by
  rw [node?_setNode (knows_of_node? hnode), if_neg, hn]
  rintro rfl
  cases hn.symm.trans hnode
  rw [happ] at hnot
  cases hnot

namespace Expands

variable {c₀ c c' : Catalog} {id definition : TypeId} {node node' definitionNode : Node}
  {args : List TypeId}

theorem refl (hc : c₀.WellFormed) : Expands c₀ c₀ where
  wellFormed := hc
  preserves := .refl c₀
  kept hnode _ := hnode
  added hnode hunknown := by
    rw [knows_of_node? hnode] at hunknown
    cases hunknown
  needed hnode happ := by
    obtain ⟨d, args, hform⟩ := isApplication_iff.mp happ
    exact .present (form?_eq_some.mpr ⟨_, hnode, hform⟩)
  declared := rfl

/-- A type that is not an application was there from the start, with the same
links. -/
theorem node?_of_not_application (h : Expands c₀ c) (hnode : c.node? id = some node)
    (hnot : node.isApplication = false) : c₀.node? id = some node := by
  cases hnode₀ : c₀.node? id with
  | none =>
    rw [h.added hnode (by rw [knows, hnode₀]; rfl)] at hnot
    cases hnot
  | some node₀ =>
    obtain ⟨node', hnode', halike⟩ := h.preserves hnode₀
    cases hnode.symm.trans hnode'
    have hnot₀ : node₀.isApplication = false := by
      rw [Node.isApplication, halike.form] at hnot
      exact hnot
    rw [← h.kept hnode₀ hnot₀, hnode]

theorem params (h : Expands c₀ c) (d : TypeId) : c.params d = c₀.params d :=
  h.preserves.params (fun _ _ => h.added) d

theorem grows (h : Expands c₀ c) (hg : Grows (Needed c₀) c c') : Expands c₀ c' where
  wellFormed := hg.wellFormed
  preserves := h.preserves.trans hg.preserves
  kept hnode hnot := hg.kept (h.kept hnode hnot)
  added hnode hunknown := by
    rcases hg.added hnode with hold | ⟨happ, -⟩
    · exact h.added hold hunknown
    · exact happ
  needed hnode happ := by
    rcases hg.added hnode with hold | ⟨-, -, -, hneeded⟩
    · rw [hg.preserves.tree (knows_of_node? hold)]
      exact h.needed hold happ
    · exact hneeded
  declared := hg.declared.trans h.declared

/-- An application may get other links. -/
theorem setNode (h : Expands c₀ c) (hnode : c.node? id = some node)
    (happ : node.isApplication = true) (halike : node'.Alike node) (hlinks : c.LinksFit node') :
    Expands c₀ (c.setNode id node') := by
  have hp := preserves_setNode hnode halike
  have hknown := knows_of_node? hnode
  have happ' : node'.isApplication = true := by
    rw [Node.isApplication, halike.form]
    exact happ
  have hcases : ∀ {other n}, (c.setNode id node').node? other = some n →
      ∃ m, c.node? other = some m ∧ n.isApplication = m.isApplication := by
    intro other n hn
    rcases node?_setNode_cases hknown hn with ⟨rfl, rfl⟩ | ⟨-, hn'⟩
    · exact ⟨node, hnode, happ'.trans happ.symm⟩
    · exact ⟨n, hn', rfl⟩
  refine
    { wellFormed := h.wellFormed.setNode hnode halike hlinks
      preserves := h.preserves.trans hp
      kept := fun hn hnot =>
        node?_setNode_of_not_application hnode happ (h.kept hn hnot) hnot
      added := ?_
      needed := ?_
      declared := h.declared }
  · intro other n hn hunknown
    obtain ⟨m, hm, heq⟩ := hcases hn
    rw [heq]
    exact h.added hm hunknown
  · intro other n hn hn'
    obtain ⟨m, hm, heq⟩ := hcases hn
    rw [hp.tree (knows_of_node? hm)]
    exact h.needed hm (heq.symm.trans hn')

/-- The links of an application may be worked out: what occurs in them is
needed. -/
theorem needed_of_link (h : Expands c₀ c) (hc₀ : c₀.WellFormed) (hnode : c.node? id = some node)
    (hform : node.form = .application definition args)
    (hdef : c.node? definition = some definitionNode) {l : TypeId}
    (hl : definitionNode.base = some l ∨ l ∈ definitionNode.interfaces) {u : TypeTree}
    (hu : c.AppliedPart (c.substitutedTree (definitionNode.params.zip args) l) u) :
    Needed c₀ u := by
  obtain ⟨_, hdef', hnot, -⟩ := h.wellFormed.node?_definition hnode hform
  cases hdef.symm.trans hdef'
  have hdef₀ := h.node?_of_not_application hdef hnot
  have hinherits := (inherits_of_node? hdef₀).mpr hl
  have hneeded := h.needed hnode (isApplication_iff.mpr ⟨_, _, hform⟩)
  rw [h.wellFormed.tree_of_application (form?_eq_some.mpr ⟨node, hnode, hform⟩)] at hneeded
  refine .inherited hneeded hinherits ?_
  rw [substitutedTree, assigned_zip, h.preserves.tree (hc₀.knows_of_inherits hinherits).1] at hu
  rw [AppliedPart, isApplied_congr h.params] at hu
  rw [show c₀.params definition = definitionNode.params by
    rw [Catalog.params, hdef₀, Option.map_some, Option.getD_some]]
  exact hu

end Expands

/-! ## 5. One step and the whole run -/

section

variable {c₀ c c' : Catalog} {id definition : TypeId} {node definitionNode : Node}
  {args : List TypeId} {index : Nat}

/-- Materializing an application works out its links and then sets them. -/
theorem materialize_run (hnode : c.node? id = some node)
    (hform : node.form = .application definition args)
    (hdef : c.node? definition = some definitionNode) :
    (materialize id).run.run c =
      match (substituteLinks (definitionNode.params.zip args) definitionNode).run.run c with
      | (.error e, c') => (.error e, c')
      | (.ok (base, interfaces), c') => (.ok (), c'.setNode id { node with base, interfaces }) := by
  rw [materialize, run_get_bind]
  simp only [hnode, hform, hdef]
  rw [run_bind, substituteLinks, run_bind]
  rcases (substituteBase (definitionNode.params.zip args) definitionNode.base).run.run c
    with ⟨_ | base, c₁⟩
  · rfl
  · simp only
    rw [run_bind, run_bind]
    rcases (substituteAll (definitionNode.params.zip args) definitionNode.interfaces).run.run c₁
      with ⟨_ | interfaces, c₂⟩ <;> rfl

/-- Other types are left alone. -/
theorem materialize_run_of_not_application (hnot : ∀ node, c.node? id = some node →
    node.isApplication = false) : (materialize id).run.run c = (.ok (), c) := by
  rw [materialize, run_get_bind]
  split
  · rfl
  · rename_i node hnode
    split
    · rename_i hform
      have happ := hnot node hnode
      rw [Node.isApplication, hform] at happ
      cases happ
    · rfl

/-- What is materialized stays so while other applications are. -/
theorem Materialized.mono (h : c.Materialized id) (hc : c.WellFormed) (hp : c.Preserves c')
    (hid : c'.node? id = c.node? id)
    (hkept : ∀ ⦃d n⦄, c.node? d = some n → n.isApplication = false → c'.node? d = some n) :
    c'.Materialized id := by
  intro node d args hnode' hform dn hdn'
  rw [hid] at hnode'
  obtain ⟨_, hdn, hnot, -, hσ⟩ := hc.node?_definition hnode' hform
  cases hdn'.symm.trans (hkept hdn hnot)
  exact (h hnode' hform hdn).mono hp hσ (hc.links hdn)
    (fun b hb => knows_of_kind? ((hc.links hnode').base hb).1)
    (fun i hi => knows_of_kind? ((hc.links hnode').interfaces hi))

/-- The work has come to number `index`: all applications below have their
links. -/
structure Progress (c₀ : Catalog) (index : Nat) (c : Catalog) : Prop extends Expands c₀ c where
  done : ∀ ⦃id⦄, id.index < index → c.Materialized id

/-- An application gets its links. Those that had theirs keep them: nothing but
this application changes, and what is new stands behind it. -/
theorem Progress.setLinks {c₁ : Catalog} {base : Option TypeId} {interfaces : List TypeId}
    (h : Progress c₀ index c) (hnode : c.node? ⟨index⟩ = some node)
    (hform : node.form = .application definition args)
    (hdef : c.node? definition = some definitionNode) (hg : Grows (Needed c₀) c c₁)
    (hlinked : c₁.LinkedAs (definitionNode.params.zip args) definitionNode base interfaces) :
    Progress c₀ (index + 1) (c₁.setNode ⟨index⟩ { node with base, interfaces }) := by
  have hexpands := h.grows hg
  have hnode₁ := hg.kept hnode
  have hdef₁ := hg.kept hdef
  obtain ⟨_, hdef', hnot, hkind, hσ⟩ := hexpands.wellFormed.node?_definition hnode₁ hform
  cases hdef₁.symm.trans hdef'
  have hlinks := hexpands.wellFormed.links hdef₁
  have hfits := hlinked.linksFit hexpands.wellFormed hσ hlinks hkind
    (by rw [Node.isParameter, hform])
  have happ := isApplication_iff.mpr ⟨definition, args, hform⟩
  have hp : c₁.Preserves (c₁.setNode ⟨index⟩ { node with base, interfaces }) :=
    preserves_setNode hnode₁ ⟨rfl, rfl, rfl, rfl⟩
  refine ⟨hexpands.setNode hnode₁ happ ⟨rfl, rfl, rfl, rfl⟩ hfits, fun id hid => ?_⟩
  rcases Nat.lt_succ_iff_lt_or_eq.mp hid with hlt | heq
  · obtain ⟨n, hn⟩ := node?_of_knows (knows_of_lt (knows_of_node? hnode) hlt)
    refine (h.done hlt).mono h.wellFormed (hg.preserves.trans hp) ?_ fun d m hm =>
      node?_setNode_of_not_application hnode₁ happ (hg.kept hm)
    rw [node?_setNode (knows_of_node? hnode₁), if_neg, hn, hg.kept hn]
    rintro rfl
    exact absurd hlt (Nat.lt_irrefl _)
  · intro n d as hn hform' dn hdn
    cases id
    cases heq
    rw [node?_setNode (knows_of_node? hnode₁), if_pos rfl] at hn
    cases hn
    cases hform.symm.trans hform'
    cases hdn.symm.trans (node?_setNode_of_not_application hnode₁ happ hdef₁ hnot)
    exact hlinked.mono hp hσ hlinks (fun b hb => knows_of_kind? (hfits.base hb).1)
      (fun i hi => knows_of_kind? (hfits.interfaces hi))

/-- One step. -/
theorem Progress.materialize (h : Progress c₀ index c) (hc₀ : c₀.WellFormed)
    (hlt : index < c.size) :
    match (materialize ⟨index⟩).run.run c with
    | (.error e, c') => Expands c₀ c' ∧ Refused (Needed c₀) c' e
    | (.ok (), c') => Progress c₀ (index + 1) c' := by
  obtain ⟨node, hnode⟩ : ∃ node, c.node? ⟨index⟩ = some node := node?_of_knows (knows_iff.mpr hlt)
  cases happ : node.isApplication with
  | false =>
    have hnot : ∀ n, c.node? ⟨index⟩ = some n → n.isApplication = false := by
      intro n hn
      cases hnode.symm.trans hn
      exact happ
    rw [materialize_run_of_not_application hnot]
    refine ⟨h.toExpands, fun id hid => ?_⟩
    rcases Nat.lt_succ_iff_lt_or_eq.mp hid with hlt | rfl
    · exact h.done hlt
    · intro n d args hn hform
      have happ' := isApplication_iff.mpr ⟨d, args, hform⟩
      rw [hnot n hn] at happ'
      cases happ'
  | true =>
    obtain ⟨d, args, hform⟩ := isApplication_iff.mp happ
    obtain ⟨dn, hdn, -, -, hσ⟩ := h.wellFormed.node?_definition hnode hform
    have hrun := within_substituteLinks h.wellFormed hσ (h.wellFormed.links hdn)
      fun l hl u hu => h.needed_of_link hc₀ hnode hform hdn hl hu
    rw [materialize_run hnode hform hdn]
    rcases hlinks : (substituteLinks (dn.params.zip args) dn).run.run c with ⟨e | ⟨base, is⟩, c₁⟩
    · rw [hlinks] at hrun
      exact ⟨h.grows hrun.grows, hrun.error rfl⟩
    · rw [hlinks] at hrun
      exact h.setLinks hnode hform hdn hrun.grows (hrun.ok rfl)

/-- The whole run, from where the work has come to. -/
theorem Progress.materializeFrom (h : Progress c₀ index c) (hc₀ : c₀.WellFormed) :
    match materializeFrom index c with
    | (.error e, c') => Expands c₀ c' ∧ Refused (Needed c₀) c' e
    | (.ok (), c') => Expands c₀ c' ∧ ∀ id, c'.Materialized id := by
  fun_induction Catalog.materializeFrom index c with
  | case1 index c hlt e c' hrun =>
    have hstep := h.materialize hc₀ hlt
    rw [hrun] at hstep
    exact hstep
  | case2 index c hlt c' hrun ih =>
    have hstep := h.materialize hc₀ hlt
    rw [hrun] at hstep
    exact ih hstep
  | case3 index c hge =>
    refine ⟨h.toExpands, fun id node d args hnode => ?_⟩
    have hknown := knows_iff.mp (knows_of_node? hnode)
    exact h.done (Nat.lt_of_lt_of_le hknown (Nat.le_of_not_lt hge)) hnode

theorem WellFormed.progress_zero (hc : c.WellFormed) : Progress c 0 c :=
  ⟨.refl hc, fun _ hlt => absurd hlt (Nat.not_lt_zero _)⟩

/-- A run that succeeds has given every application its links. -/
theorem WellFormed.expands_of_ok (hc : c.WellFormed)
    (h : Catalog.materializeFrom 0 c = (.ok (), c')) : Expands c c' ∧ ∀ id, c'.Materialized id := by
  have hrun := hc.progress_zero.materializeFrom hc
  rw [h] at hrun
  exact hrun

/-- A run that is refused has met a needed type that is beyond a limit. -/
theorem WellFormed.refused_of_error (hc : c.WellFormed) {e : CatalogError}
    (h : Catalog.materializeFrom 0 c = (.error e, c')) :
    Expands c c' ∧ Refused (Needed c) c' e := by
  have hrun := hc.progress_zero.materializeFrom hc
  rw [h] at hrun
  exact hrun

/-- What finishing does when it succeeds. -/
theorem finish_eq_ok_iff {h : Hierarchy} :
    c.finish = .ok h ↔ c.inheritanceCycle? = none ∧
      ∃ direct, Catalog.materializeFrom 0 c = (.ok (), direct) ∧
        h = ⟨direct.withInheritedInterfaces⟩ := by
  unfold finish
  constructor
  · intro hfinish
    split at hfinish
    · cases hfinish
    · split at hfinish
      · cases hfinish
      · rename_i hcycle _ direct hrun
        exact ⟨hcycle, direct, hrun, (Except.ok.inj hfinish).symm⟩
  · rintro ⟨hcycle, direct, hrun, rfl⟩
    rw [hcycle, hrun]

end

end Generics.Catalog

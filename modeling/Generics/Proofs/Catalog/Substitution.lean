/-
Generics.Proofs.Catalog.Substitution — substituting into a type is replacing
the leaves of its tree.

Substitution works on numbers and enters applications on the way. What it
promises is said about trees: if it succeeds, the tree of the answer is the tree
of the type with the parameters replaced, all at once. Whether it succeeds or is
refused, the catalogue has only grown, by applications that are parts of that
tree, and a refusal means that one of these parts is beyond a limit.

`Within` is this promise for one run, with the set of trees that may be entered
as a parameter, so that promises can be joined (`Within.bind`).
-/
import Generics.Catalog.Substitution
import Generics.Proofs.Catalog.Operations

namespace Generics.Catalog

open TypeTree

/-! ## 1. Growth -/

/-- `c'` is `c` with further applications, whose trees are in `X`. -/
structure Grows (X : TypeTree → Prop) (c c' : Catalog) : Prop where
  wellFormed : c'.WellFormed
  kept : ∀ {id node}, c.node? id = some node → c'.node? id = some node
  added : ∀ {id node}, c'.node? id = some node → c.node? id = some node ∨
    node.isApplication = true ∧ node.base = none ∧ node.interfaces = [] ∧ X (c'.tree id)
  declared : c'.declared = c.declared

/-- `c'` is `c` with applications appended, which have no links yet. -/
structure AppendsApplications (c c' : Catalog) : Prop where
  nodes : ∃ added : Array Node, c'.nodes = c.nodes ++ added ∧
    ∀ node ∈ added, node.isApplication = true ∧ node.base = none ∧ node.interfaces = []
  declared : c'.declared = c.declared
  applications : ∀ definition args id, c'.applications[(definition, args)]? = some id ↔
    c.applications[(definition, args)]? = some id ∨
      c.size ≤ id.index ∧ c'.form? id = some (.application definition args)

/-- Two catalogues with the same open definitions see the same open definitions
in trees. -/
theorem areOwnParams_congr {c c' : Catalog} (h : ∀ d, c'.params d = c.params d)
    (definition : TypeId) (args : List TypeTree) :
    c'.areOwnParams definition args = c.areOwnParams definition args := by
  rw [areOwnParams, areOwnParams, h]

theorem isApplied_congr {c c' : Catalog} (h : ∀ d, c'.params d = c.params d) (t : TypeTree) :
    c'.isApplied t = c.isApplied t := by
  cases t with
  | leaf id => rfl
  | apply d args => rw [isApplied, isApplied, areOwnParams_congr h]

theorem treesDepth_congr {c c' : Catalog} {args : List TypeTree}
    (h : ∀ a ∈ args, c'.treeDepth a = c.treeDepth a) : c'.treesDepth args = c.treesDepth args := by
  induction args with
  | nil => rfl
  | cons a rest ih =>
    rw [treesDepth, treesDepth, h a List.mem_cons_self,
      ih fun b hb => h b (List.mem_cons_of_mem _ hb)]

theorem treeDepth_congr {c c' : Catalog} (h : ∀ d, c'.params d = c.params d) (t : TypeTree) :
    c'.treeDepth t = c.treeDepth t := by
  induction t with
  | leaf id => rfl
  | apply d args ih => rw [treeDepth, treeDepth, areOwnParams_congr h, treesDepth_congr ih]

namespace Grows

variable {X : TypeTree → Prop} {c c' c'' : Catalog}

theorem refl (hc : c.WellFormed) : Grows X c c :=
  ⟨hc, id, .inl, rfl⟩

theorem preserves (h : Grows X c c') : c.Preserves c' :=
  fun _ _ hnode => ⟨_, h.kept hnode, .refl _⟩

theorem trans (h : Grows X c c') (h' : Grows X c' c'') : Grows X c c'' where
  wellFormed := h'.wellFormed
  kept hnode := h'.kept (h.kept hnode)
  added := by
    intro id node hnode
    rcases h'.added hnode with hold | hnew
    · rcases h.added hold with hold' | ⟨happ, hbase, hinterfaces, hX⟩
      · exact .inl hold'
      · rw [← h'.preserves.tree (knows_of_node? hold)] at hX
        exact .inr ⟨happ, hbase, hinterfaces, hX⟩
    · exact .inr hnew
  declared := h'.declared.trans h.declared

/-- Growth adds no open definition. -/
theorem params (h : Grows X c c') (d : TypeId) : c'.params d = c.params d := by
  refine h.preserves.params (fun id node hnode hunknown => ?_) d
  rcases h.added hnode with hold | ⟨happ, -⟩
  · rw [knows_of_node? hold] at hunknown
    cases hunknown
  · exact happ

/-- A new application has grown the catalogue. -/
theorem addApplication {definition : TypeId} {node : Node} {args : List TypeId}
    (hc' : (c.addApplication definition node args).2.WellFormed)
    (hX : X ((c.addApplication definition node args).2.tree c.nextId)) :
    Grows X c (c.addApplication definition node args).2 where
  wellFormed := hc'
  kept hnode := node?_append_old (nodes_addApplication c definition node args) hnode
  added := by
    intro id n hn
    rcases node?_addApplication_cases hn with hold | ⟨rfl, rfl⟩
    · exact .inl hold
    · exact .inr ⟨rfl, rfl, rfl, hX⟩
  declared := rfl

/-- A catalogue that has grown has the old nodes first. -/
theorem nodes_eq (h : Grows X c c') :
    c'.nodes = c.nodes ++ c'.nodes.extract c.nodes.size c'.nodes.size := by
  have hold : ∀ i, i < c.nodes.size → c'.nodes[i]? = c.nodes[i]? := by
    intro i hi
    have hknown : c.knows ⟨i⟩ = true := knows_iff.mpr hi
    obtain ⟨node, hnode⟩ := node?_of_knows hknown
    exact (h.kept hnode).trans hnode.symm
  apply Array.ext_getElem?
  intro i
  rw [Array.getElem?_append]
  split
  · exact hold i ‹_›
  · have hplace : c.nodes.size + (i - c.nodes.size) = i := by omega
    rw [Array.getElem?_extract, hplace]
    split
    · rfl
    · exact Array.getElem?_eq_none (by omega)

/-- The index has the old entries, and leads to what is new. -/
theorem applications_iff (h : Grows X c c') (hc : c.WellFormed) {definition id : TypeId}
    {args : List TypeId} :
    c'.applications[(definition, args)]? = some id ↔
      c.applications[(definition, args)]? = some id ∨
        c.size ≤ id.index ∧ c'.form? id = some (.application definition args) := by
  rw [h.wellFormed.applications, hc.applications]
  constructor
  · intro hform
    cases hknown : c.knows id with
    | true => exact .inl ((h.preserves.form?_eq hknown).symm.trans hform)
    | false =>
      refine .inr ⟨Nat.le_of_not_lt fun hlt => ?_, hform⟩
      rw [knows_iff.mpr hlt] at hknown
      cases hknown
  · rintro (hform | ⟨-, hform⟩)
    · exact h.preserves.form? hform
    · exact hform

theorem appends (h : Grows X c c') (hc : c.WellFormed) : c.AppendsApplications c' := by
  refine ⟨⟨_, h.nodes_eq, fun node hmem => ?_⟩, h.declared, fun _ _ _ => h.applications_iff hc⟩
  obtain ⟨i, hi⟩ := Array.mem_iff_getElem?.mp hmem
  rw [Array.getElem?_extract] at hi
  split at hi
  · have hnew : c'.node? ⟨c.nodes.size + i⟩ = some node := hi
    rcases h.added hnew with hnode | ⟨happ, hbase, hinterfaces, -⟩
    · have hlt : c.nodes.size + i < c.size := knows_iff.mp (knows_of_node? hnode)
      exact absurd hlt (Nat.not_lt.mpr (Nat.le_add_right _ _))
    · exact ⟨happ, hbase, hinterfaces⟩
  · cases hi

end Grows

/-! ## 2. Runs that only grow -/

/-- Why a run that may enter the trees of `X` was refused: one of them nests too
deep, or one of them is new and there is no room left. -/
inductive Refused (X : TypeTree → Prop) (c : Catalog) : CatalogError → Prop
  | tooDeep {name : String} {t : TypeTree} (ht : X t) (h : Limits.nesting < c.treeDepth t) :
      Refused X c (.nestingTooDeep name)
  | tooMany {t : TypeTree} (ht : X t) (hnew : ∀ id, c.tree id ≠ t)
      (h : Limits.applications ≤ c.applications.size) : Refused X c .tooManyApplications

/-- A refusal ends a run, with the catalogue as far as it had come. -/
theorem run_bind {α β : Type} (x : Build α) (f : α → Build β) (c : Catalog) :
    (x >>= f).run.run c =
      match x.run.run c with
      | (.error e, c') => (.error e, c')
      | (.ok a, c') => (f a).run.run c' := by
  rw [ExceptT.run_bind, StateT.run_bind]
  rcases x.run.run c with ⟨_ | _, _⟩ <;> rfl

/-- What a run from `c` has come to: the catalogue has grown by trees of `X`, an
answer has the property `Q`, and a refusal has its reason in `X`. -/
structure Within {α : Type} (X : TypeTree → Prop) (c : Catalog) (Q : α → Catalog → Prop)
    (result : Except CatalogError α × Catalog) : Prop where
  grows : Grows X c result.2
  ok : ∀ {a}, result.1 = .ok a → Q a result.2
  error : ∀ {e}, result.1 = .error e → Refused X result.2 e

namespace Within

variable {α β : Type} {X : TypeTree → Prop} {c : Catalog}

theorem pure {Q : α → Catalog → Prop} {a : α} (hc : c.WellFormed) (h : Q a c) :
    Within X c Q ((pure a : Build α).run.run c) where
  grows := .refl hc
  ok ha := by cases ha; exact h
  error he := by cases he

/-- One run after another. -/
theorem bind {Q : α → Catalog → Prop} {R : β → Catalog → Prop} {x : Build α} {f : α → Build β}
    (hx : Within X c Q (x.run.run c))
    (hf : ∀ a c', Grows X c c' → Q a c' → Within X c' R ((f a).run.run c')) :
    Within X c R ((x >>= f).run.run c) := by
  rw [run_bind]
  rcases hrun : x.run.run c with ⟨e | a, c'⟩
  · rw [hrun] at hx
    exact ⟨hx.grows, nofun, fun he => by cases he; exact hx.error rfl⟩
  · rw [hrun] at hx
    have hnext := hf a c' hx.grows (hx.ok rfl)
    exact ⟨hx.grows.trans hnext.grows, hnext.ok, hnext.error⟩

end Within

/-! ## 3. Applying a definition -/

section

variable {X : TypeTree → Prop} {c : Catalog} {id definition : TypeId} {params args : List TypeId}

/-- The depth of an application is that of its tree. -/
theorem WellFormed.treeDepth_apply (hc : c.WellFormed)
    (hform : c.form? definition = some (.definition params)) (hown : args ≠ params) :
    c.treeDepth (.apply definition (args.map c.tree)) = c.applicationDepth args := by
  have hnot : ¬ c.areOwnParams definition (args.map c.tree) = true := by
    rw [areOwnParams_iff, params_of_definition hform]
    intro heq
    exact hown (eq_of_map_eq_map heq fun a _ b hab => hc.eq_of_tree_eq_leaf hab)
  rw [treeDepth, if_neg hnot, treesDepth_map_tree fun a _ => hc.depth_eq_treeDepth a]
  rfl

/-- What is not in the index is nowhere in the catalogue. -/
theorem WellFormed.tree_ne_of_not_indexed (hc : c.WellFormed)
    (hform : c.form? definition = some (.definition params)) (hown : args ≠ params)
    (hnew : c.applications[(definition, args)]? = none) (id : TypeId) :
    c.tree id ≠ .apply definition (args.map c.tree) := by
  intro htree
  obtain ⟨hdef, hargs⟩ := hc.definition?_of_tree htree
  have heq := eq_of_map_eq_map hargs fun a _ b hab => hc.tree_injective hab
  rcases definition?_eq_some hdef with ⟨params', hform', rfl⟩ | ⟨args', hform'⟩
  · rw [args_of_definition hform'] at heq
    rw [hform'] at hform
    cases hform
    exact hown heq.symm
  · rw [args_of_application hform'] at heq
    subst heq
    rw [hc.applications.mpr hform'] at hnew
    cases hnew

theorem tree_addApplication {node : Node}
    (hc' : (c.addApplication definition node args).2.WellFormed)
    (hargs : ∀ a ∈ args, c.knows a = true) :
    (c.addApplication definition node args).2.tree c.nextId =
      .apply definition (args.map c.tree) := by
  have hp := preserves_append (nodes_addApplication c definition node args)
  rw [hc'.tree_of_application (form?_of_node? (node?_addApplication_new c definition node args)),
    List.map_congr_left fun a ha => hp.tree (hargs a ha)]

/-- Applying a definition to known arguments gives the type whose tree is the
definition over the trees of the arguments. -/
theorem within_instantiate (hc : c.WellFormed)
    (hform : c.form? definition = some (.definition params))
    (hlength : args.length = params.length) (hargs : ∀ a ∈ args, c.knows a = true)
    (hX : args ≠ params → X (.apply definition (args.map c.tree))) :
    Within X c
      (fun id c' => c'.knows id = true ∧ c'.tree id = .apply definition (args.map c.tree))
      ((instantiate definition args).run.run c) := by
  have hrun := instantiated_run c definition args
  generalize (instantiate definition args).run.run c = result at hrun ⊢
  cases hrun with
  | unknown h =>
    rw [knows_of_form? hform] at h
    cases h
  | notDefinition _ h =>
    rw [isDefinition_iff.mpr ⟨params, hform⟩] at h
    cases h
  | arity hform' h =>
    cases hform.symm.trans hform'
    exact absurd hlength h
  | own hform' =>
    refine ⟨.refl hc, fun ha => ?_, nofun⟩
    cases ha
    refine ⟨knows_of_form? hform', ?_⟩
    rw [hc.tree_of_definition? (definition?_of_definition hform'), args_of_definition hform']
  | unknownArgument _ _ _ h =>
    have hunknown := List.find?_some h
    rw [hargs _ (List.mem_of_find?_eq_some h)] at hunknown
    cases hunknown
  | found _ _ _ _ h =>
    have hid := hc.applications.mp h
    refine ⟨.refl hc, fun ha => ?_, nofun⟩
    cases ha
    exact ⟨knows_of_form? hid, hc.tree_of_application hid⟩
  | tooDeep hform' _ hown _ _ h =>
    cases hform.symm.trans hform'
    refine ⟨.refl hc, nofun, fun he => ?_⟩
    cases he
    exact .tooDeep (hX hown) (by rw [hc.treeDepth_apply hform hown]; exact h)
  | tooMany hform' _ hown _ hnew _ h =>
    cases hform.symm.trans hform'
    refine ⟨.refl hc, nofun, fun he => ?_⟩
    cases he
    exact .tooMany (hX hown) (hc.tree_ne_of_not_indexed hform hown hnew) h
  | @entered _ node hnode hform' _ hown _ hnew hdepth hroom =>
    cases hform.symm.trans (form?_eq_some.mpr ⟨_, hnode, hform'⟩)
    have hc' := hc.addApplication hnode hform' hlength hown hargs hnew hdepth hroom
    have htree := tree_addApplication hc' hargs
    refine ⟨.addApplication hc' (by rw [htree]; exact hX hown), fun ha => ?_, nofun⟩
    cases ha
    exact ⟨knows_of_node? (node?_addApplication_new c definition node args), htree⟩

end

/-! ## 4. Substitution -/

/-- A substitution that gives known types to type parameters. -/
def Substitutes (c : Catalog) (σ : Substitution) : Prop :=
  ∀ ⦃p a⦄, σ.lookup p = some a → c.isParameter p = true ∧ c.knows a = true

/-- The tree that a substitution puts in place of a leaf. -/
def assigned (c : Catalog) (σ : Substitution) (id : TypeId) : TypeTree :=
  ((σ.lookup id).map c.tree).getD (.leaf id)

/-- A type with its parameters replaced, as a tree. -/
def substitutedTree (c : Catalog) (σ : Substitution) (id : TypeId) : TypeTree :=
  (c.tree id).replace (c.assigned σ)

/-- The applications that occur in a tree. -/
def AppliedPart (c : Catalog) (t u : TypeTree) : Prop :=
  Part u t ∧ c.isApplied u = true

section

variable {X : TypeTree → Prop} {c c' : Catalog} {σ : Substitution} {id : TypeId}

theorem Substitutes.mono (h : c.Substitutes σ) (hp : c.Preserves c') : c'.Substitutes σ := by
  intro p a hlookup
  obtain ⟨hparam, hknown⟩ := h hlookup
  obtain ⟨position, hform⟩ := isParameter_iff.mp hparam
  exact ⟨isParameter_iff.mpr ⟨position, hp.form? hform⟩, hp.knows hknown⟩

theorem assigned_eq (h : c.Substitutes σ) (hp : c.Preserves c') (p : TypeId) :
    c'.assigned σ p = c.assigned σ p := by
  unfold assigned
  cases hlookup : σ.lookup p with
  | none => rfl
  | some a => rw [Option.map_some, Option.map_some, hp.tree (h hlookup).2]

theorem substitutedTree_eq (h : c.Substitutes σ) (hp : c.Preserves c')
    (hid : c.knows id = true) : c'.substitutedTree σ id = c.substitutedTree σ id := by
  rw [substitutedTree, substitutedTree, hp.tree hid,
    show c'.assigned σ = c.assigned σ from funext fun p => assigned_eq h hp p]

theorem Grows.appliedPart_iff (h : Grows X c c') {t u : TypeTree} :
    c'.AppliedPart t u ↔ c.AppliedPart t u := by
  rw [AppliedPart, AppliedPart, isApplied_congr h.params]

theorem substitutedTree_of_definition?_none (h : c.definition? id = none) :
    c.substitutedTree σ id = c.assigned σ id := by
  rw [substitutedTree, tree_of_definition?_none h, replace_leaf]

theorem WellFormed.substitutedTree_of_definition? (hc : c.WellFormed) {d : TypeId}
    (h : c.definition? id = some d) :
    c.substitutedTree σ id = .apply d ((c.args id).map (c.substitutedTree σ)) := by
  rw [substitutedTree, hc.tree_of_definition? h, replace_apply, List.map_map]
  rfl

/-- The definition of a generic type is an open definition with as many
parameters as the type has arguments. -/
theorem WellFormed.form?_of_definition? (hc : c.WellFormed) {d : TypeId}
    (h : c.definition? id = some d) :
    ∃ params, c.form? d = some (.definition params) ∧ (c.args id).length = params.length := by
  rcases definition?_eq_some h with ⟨params, hform, rfl⟩ | ⟨args, hform⟩
  · exact ⟨params, hform, by rw [args_of_definition hform]⟩
  · obtain ⟨node, -, happ⟩ := hc.appliedTo hform
    obtain ⟨params, hd⟩ := isDefinition_iff.mp happ.isDefinition
    refine ⟨params, hd, ?_⟩
    rw [args_of_application hform, happ.arity, params_of_definition hd]

/-- A generic type has arguments. -/
theorem WellFormed.args_ne_nil (hc : c.WellFormed) {d : TypeId} (h : c.definition? id = some d) :
    c.args id ≠ [] := by
  obtain ⟨params, hform, hlength⟩ := hc.form?_of_definition? h
  intro hnil
  rw [hnil] at hlength
  exact (hc.ownParams hform).nonempty (List.eq_nil_of_length_eq_zero hlength.symm)

/-- A definition over trees that are not its own parameters is an application. -/
theorem WellFormed.isApplied_apply (hc : c.WellFormed) {d : TypeId} {params args : List TypeId}
    (hform : c.form? d = some (.definition params)) (hown : args ≠ params) :
    c.isApplied (.apply d (args.map c.tree)) = true := by
  rw [isApplied, Bool.not_eq_true', Bool.eq_false_iff, ne_eq, areOwnParams_iff,
    params_of_definition hform]
  intro heq
  exact hown (eq_of_map_eq_map heq fun a _ b hab => hc.eq_of_tree_eq_leaf hab)

/-- A generic type with other arguments, given that the trees of these are the
substituted ones. -/
theorem within_reapply (hc : c.WellFormed) {d : TypeId} {args substituted : List TypeId}
    (hdef : c.definition? id = some d) (hargs : args = c.args id)
    (hknown : ∀ a ∈ substituted, c.knows a = true)
    (htrees : substituted.map c.tree = (c.args id).map (c.substitutedTree σ))
    (hX : ∀ u, c.AppliedPart (c.substitutedTree σ id) u → X u) :
    Within X c (fun r c' => c'.knows r = true ∧ c'.tree r = c.substitutedTree σ id)
      ((reapply id d args substituted).run.run c) := by
  subst hargs
  have htree := hc.substitutedTree_of_definition? (σ := σ) hdef
  rw [← htrees] at htree
  unfold reapply
  split
  · rename_i hsame
    refine .pure hc ⟨?_, ?_⟩
    · rcases definition?_eq_some hdef with ⟨params, hform, -⟩ | ⟨as, hform⟩ <;>
        exact knows_of_form? hform
    · rw [htree, hsame, hc.tree_of_definition? hdef]
  · obtain ⟨params, hform, hlength⟩ := hc.form?_of_definition? hdef
    have hlength' : substituted.length = params.length := by
      rw [← hlength, ← List.length_map c.tree, htrees, List.length_map]
    rw [htree] at hX ⊢
    exact within_instantiate hc hform hlength' hknown fun hown =>
      hX _ ⟨.refl _, hc.isApplied_apply hform hown⟩

/-- The parameters of a definition after substitution are known. -/
theorem WellFormed.knows_of_mem_assigned (hc : c.WellFormed) (hσ : c.Substitutes σ)
    {params : List TypeId} (hform : c.form? id = some (.definition params)) {a : TypeId}
    (ha : a ∈ params.map fun p => (σ.lookup p).getD p) : c.knows a = true := by
  obtain ⟨p, hp, rfl⟩ := List.mem_map.mp ha
  cases hlookup : σ.lookup p with
  | none => exact knows_of_isParameter (hc.isParameter_of_mem_params hform hp)
  | some a => exact (hσ hlookup).2

/-- The parameters of a definition after substitution have the substituted trees. -/
theorem WellFormed.map_tree_assigned (hc : c.WellFormed) {params : List TypeId}
    (hform : c.form? id = some (.definition params)) :
    (params.map fun p => (σ.lookup p).getD p).map c.tree = params.map (c.substitutedTree σ) := by
  rw [List.map_map]
  refine List.map_congr_left fun p hp => ?_
  rw [Function.comp_apply, substitutedTree, hc.tree_of_mem_params hform hp, replace_leaf, assigned]
  cases hlookup : σ.lookup p with
  | none => exact hc.tree_of_mem_params hform hp
  | some a => rfl

/-- What occurs in an argument after substitution occurs in the whole. -/
theorem AppliedPart.of_arg {d a : TypeId} {u : TypeTree}
    (h : c.AppliedPart (c.substitutedTree σ a) u) (hc : c.WellFormed)
    (hdef : c.definition? id = some d) (ha : a ∈ c.args id) :
    c.AppliedPart (c.substitutedTree σ id) u := by
  refine ⟨?_, h.2⟩
  rw [hc.substitutedTree_of_definition? hdef]
  exact .arg (List.mem_map_of_mem ha) h.1

/-- The types `rs` are the types `ids` after substitution. -/
def AreSubstituted (c : Catalog) (σ : Substitution) (ids : List TypeId) (rs : List TypeId)
    (c' : Catalog) : Prop :=
  (∀ r ∈ rs, c'.knows r = true) ∧ rs.map c'.tree = ids.map (c.substitutedTree σ)

/-- A type after substitution in front of others after substitution. The second
run starts where the first has come to, where the trees are still the same. -/
theorem within_cons {a : TypeId} {rest : List TypeId} {x : Build TypeId}
    {xs : Build (List TypeId)} (hσ : c.Substitutes σ) (hrest : ∀ b ∈ rest, c.knows b = true)
    (hx : Within X c (fun r c' => c'.knows r = true ∧ c'.tree r = c.substitutedTree σ a)
      (x.run.run c))
    (hX : ∀ b ∈ rest, ∀ u, c.AppliedPart (c.substitutedTree σ b) u → X u)
    (hxs : ∀ c', Grows X c c' →
      (∀ b ∈ rest, ∀ u, c'.AppliedPart (c'.substitutedTree σ b) u → X u) →
      Within X c' (c'.AreSubstituted σ rest) (xs.run.run c')) :
    Within X c (c.AreSubstituted σ (a :: rest))
      ((do let r ← x; let rs ← xs; return r :: rs : Build (List TypeId)).run.run c) := by
  refine .bind hx fun r c' hgrows hr => ?_
  have heq : ∀ b ∈ rest, c'.substitutedTree σ b = c.substitutedTree σ b := fun b hb =>
    substitutedTree_eq hσ hgrows.preserves (hrest b hb)
  refine .bind (hxs c' hgrows ?_) fun rs c'' hgrows' hrs => ?_
  · intro b hb u hu
    rw [hgrows.appliedPart_iff, heq b hb] at hu
    exact hX b hb u hu
  · refine .pure hgrows'.wellFormed ⟨?_, ?_⟩
    · intro y hy
      rcases List.mem_cons.mp hy with rfl | hy
      · exact hgrows'.preserves.knows hr.1
      · exact hrs.1 y hy
    · rw [List.map_cons, List.map_cons, hgrows'.preserves.tree hr.1, hr.2, hrs.2,
        List.map_congr_left heq]

end

mutual

/-- Substituting into a type gives the type whose tree has the parameters
replaced, and enters nothing but applications that occur in that tree. -/
theorem within_substitute {X : TypeTree → Prop} {c : Catalog} {σ : Substitution} {id : TypeId}
    (hc : c.WellFormed) (hσ : c.Substitutes σ) (hid : c.knows id = true)
    (hX : ∀ u, c.AppliedPart (c.substitutedTree σ id) u → X u) :
    Within X c (fun r c' => c'.knows r = true ∧ c'.tree r = c.substitutedTree σ id)
      ((substitute σ id).run.run c) := by
  rw [substitute]
  split
  · rename_i a hlookup
    obtain ⟨hparam, hknown⟩ := hσ hlookup
    refine .pure hc ⟨hknown, ?_⟩
    rw [substitutedTree_of_definition?_none (definition?_of_isParameter hparam), assigned, hlookup]
    rfl
  · rename_i hlookup
    rw [run_get_bind]
    have hleaf : c.definition? id = none → c.tree id = c.substitutedTree σ id := fun hdef => by
      rw [substitutedTree_of_definition?_none hdef, tree_of_definition?_none hdef, assigned,
        hlookup]
      rfl
    split
    · rename_i hnode
      rw [knows, hnode] at hid
      cases hid
    · rename_i node hnode
      split
      · rename_i hform
        exact .pure hc ⟨hid, hleaf (by rw [definition?, hnode, Option.map_some, hform])⟩
      · rename_i hform
        exact .pure hc ⟨hid, hleaf (by rw [definition?, hnode, Option.map_some, hform])⟩
      · rename_i params hform
        have hform' := form?_eq_some.mpr ⟨node, hnode, hform⟩
        exact within_reapply hc (definition?_of_definition hform') (args_of_definition hform').symm
          (fun a ha => hc.knows_of_mem_assigned hσ hform' ha)
          (by rw [args_of_definition hform']; exact hc.map_tree_assigned hform') hX
      · rename_i d args hform
        have hform' := form?_eq_some.mpr ⟨node, hnode, hform⟩
        have hdef := definition?_of_application hform'
        have hargs := args_of_application hform'
        obtain ⟨_, hnode', happ⟩ := hc.appliedTo hform'
        refine .bind (within_substituteArgs hc hσ hid happ.args_older
          fun a ha u hu => hX u (hu.of_arg hc hdef (hargs.symm ▸ ha))) ?_
        intro substituted c' hgrows hQ
        have htree := substitutedTree_eq hσ hgrows.preserves hid
        rw [← htree]
        have hdef' := (hgrows.preserves.definition? hid).trans hdef
        have hargs' : c'.args id = args := args_of_application (hgrows.preserves.form? hform')
        refine within_reapply hgrows.wellFormed hdef' hargs'.symm hQ.1 ?_ ?_
        · rw [hQ.2, hargs']
          exact List.map_congr_left fun a ha =>
            (substitutedTree_eq hσ hgrows.preserves
              (knows_of_lt hid (happ.args_older a ha))).symm
        · intro u hu
          rw [hgrows.appliedPart_iff, htree] at hu
          exact hX u hu
termination_by (id.index, 1, 0)

theorem within_substituteArgs {X : TypeTree → Prop} {c : Catalog} {σ : Substitution} {id : TypeId}
    {args : List TypeId} (hc : c.WellFormed) (hσ : c.Substitutes σ) (hid : c.knows id = true)
    (hargs : ∀ a ∈ args, a.index < id.index)
    (hX : ∀ a ∈ args, ∀ u, c.AppliedPart (c.substitutedTree σ a) u → X u) :
    Within X c (c.AreSubstituted σ args) ((substituteArgs σ id args).run.run c) := by
  cases args with
  | nil =>
    rw [substituteArgs]
    exact .pure hc ⟨nofun, rfl⟩
  | cons a rest =>
    have hlt := hargs a List.mem_cons_self
    have hrest : ∀ b ∈ rest, b.index < id.index := fun b hb => hargs b (List.mem_cons_of_mem _ hb)
    rw [substituteArgs, if_pos hlt]
    have hknown : ∀ b ∈ rest, c.knows b = true := fun b hb => knows_of_lt hid (hrest b hb)
    refine within_cons hσ hknown
      (within_substitute hc hσ (knows_of_lt hid hlt) (hX a List.mem_cons_self))
      (fun b hb => hX b (List.mem_cons_of_mem _ hb)) ?_
    intro c' hgrows hX'
    exact within_substituteArgs hgrows.wellFormed (hσ.mono hgrows.preserves)
      (hgrows.preserves.knows hid) hrest hX'
termination_by (id.index, 0, args.length)

end

theorem within_substituteAll {X : TypeTree → Prop} {c : Catalog} {σ : Substitution}
    {ids : List TypeId} (hc : c.WellFormed) (hσ : c.Substitutes σ)
    (hids : ∀ id ∈ ids, c.knows id = true)
    (hX : ∀ id ∈ ids, ∀ u, c.AppliedPart (c.substitutedTree σ id) u → X u) :
    Within X c (c.AreSubstituted σ ids) ((substituteAll σ ids).run.run c) := by
  induction ids generalizing c with
  | nil => exact .pure hc ⟨nofun, rfl⟩
  | cons id rest ih =>
    have hrest : ∀ b ∈ rest, c.knows b = true := fun b hb => hids b (List.mem_cons_of_mem _ hb)
    refine within_cons hσ hrest
      (within_substitute hc hσ (hids id List.mem_cons_self) (hX id List.mem_cons_self))
      (fun b hb => hX b (List.mem_cons_of_mem _ hb)) ?_
    intro c' hgrows hX'
    exact ih hgrows.wellFormed (hσ.mono hgrows.preserves)
      (fun b hb => hgrows.preserves.knows (hrest b hb)) hX'

theorem within_substituteBase {X : TypeTree → Prop} {c : Catalog} {σ : Substitution}
    {base : Option TypeId} (hc : c.WellFormed) (hσ : c.Substitutes σ)
    (hbase : ∀ b, base = some b → c.knows b = true)
    (hX : ∀ b, base = some b → ∀ u, c.AppliedPart (c.substitutedTree σ b) u → X u) :
    Within X c
      (fun r c' => (∀ b, r = some b → c'.knows b = true) ∧
        r.map c'.tree = base.map (c.substitutedTree σ))
      ((substituteBase σ base).run.run c) := by
  cases base with
  | none => exact .pure hc ⟨nofun, rfl⟩
  | some b =>
    refine .bind (within_substitute hc hσ (hbase b rfl) (hX b rfl)) fun r c' hgrows hr => ?_
    refine .pure hgrows.wellFormed ⟨fun b' hb' => ?_, ?_⟩
    · cases hb'
      exact hr.1
    · rw [Option.map_some, Option.map_some, hr.2]

end Generics.Catalog

/-
Generics.Proofs.Catalog.WellFormed — what is true of every catalogue that the
operations can build.

`Catalog.WellFormed` collects it: how each form of type refers to other types,
where links may lead, and that the index of applications is exact. From it
follows that a type is its tree: `tree_injective` says that two numbers with
the same tree are the same number, `depth_eq_treeDepth` that the depth noted in
a node is the one its tree has.

Most of what is asked about a type does not depend on its links. `Preserves`
compares two catalogues up to links, and the trees of the first are those of
the second.
-/
import Generics.Catalog.Build
import Generics.Proofs.TypeTree

namespace Generics

open TypeTree

/-- Two nodes that differ in their links at most. -/
structure Node.Alike (m n : Node) : Prop where
  name : m.name = n.name
  kind : m.kind = n.kind
  form : m.form = n.form
  depth : m.depth = n.depth

theorem Node.Alike.refl (n : Node) : n.Alike n := ⟨rfl, rfl, rfl, rfl⟩

theorem Node.Alike.trans {l m n : Node} (hlm : l.Alike m) (hmn : m.Alike n) : l.Alike n :=
  ⟨hlm.name.trans hmn.name, hlm.kind.trans hmn.kind, hlm.form.trans hmn.form,
    hlm.depth.trans hmn.depth⟩

namespace Catalog

/-! ## 1. Types as trees -/

/-- A type written out. A number without a node is a leaf. -/
def tree (c : Catalog) (id : TypeId) : TypeTree :=
  match c.node? id with
  | none => .leaf id
  | some node =>
    match node.form with
    | .plain => .leaf id
    | .parameter _ => .leaf id
    | .definition params => .apply id (params.map .leaf)
    | .application definition args =>
      .apply definition ((olderThan id args).attach.map fun a => c.tree a.1)
termination_by id.index
decreasing_by exact index_lt_of_mem_olderThan a.2

/-- Whether trees are the parameters of a definition, in their order: applied
to them the definition is itself. -/
def areOwnParams (c : Catalog) (definition : TypeId) (args : List TypeTree) : Bool :=
  args.map leaf? = (c.params definition).map some

theorem areOwnParams_iff {c : Catalog} {definition : TypeId} {args : List TypeTree} :
    c.areOwnParams definition args = true ↔ args = (c.params definition).map leaf := by
  rw [areOwnParams, decide_eq_true_iff, map_leaf?_eq]

/-- Whether a tree is an application: a definition over arguments that are not
just its own parameters. -/
def isApplied (c : Catalog) : TypeTree → Bool
  | .leaf _ => false
  | .apply definition args => !c.areOwnParams definition args

mutual

/-- How deep applications nest in a tree; an open definition is none. -/
def treeDepth (c : Catalog) : TypeTree → Nat
  | .leaf _ => 0
  | .apply definition args =>
    if c.areOwnParams definition args then 0 else c.treesDepth args + 1

/-- How deep applications nest in the deepest of several trees. -/
def treesDepth (c : Catalog) : List TypeTree → Nat
  | [] => 0
  | a :: rest => max (c.treeDepth a) (c.treesDepth rest)

end

/-! ## 2. The invariant -/

/-- The kind of a type. -/
def kind? (c : Catalog) (id : TypeId) : Option Kind :=
  (c.node? id).map Node.kind

/-- How the type `id` is formed, if it is formed in one of these ways. -/
def form? (c : Catalog) (id : TypeId) : Option Form :=
  (c.node? id).map Node.form

/-- The parameters of an open definition: there is at least one, they were made
right after the definition, and each knows its position. -/
structure OwnParams (c : Catalog) (id : TypeId) (params : List TypeId) : Prop where
  nonempty : params ≠ []
  following : params = (List.range params.length).map fun i => ⟨id.index + 1 + i⟩
  positions : ∀ {i p}, params[i]? = some p → c.form? p = some (.parameter i)

/-- An application and what it is made of: an open definition and as many
arguments as that has parameters, all of them made earlier. It has the name and
the traits of the definition, other than being one, and it nests one deeper
than its arguments, within the limit. -/
structure AppliedTo (c : Catalog) (id : TypeId) (node : Node) (definition : TypeId)
    (args : List TypeId) : Prop where
  isDefinition : c.isDefinition definition = true
  definition_older : definition.index < id.index
  args_older : ∀ a ∈ args, a.index < id.index
  arity : args.length = (c.params definition).length
  not_own : args ≠ c.params definition
  name : c.name definition = node.name
  kind : c.kind? definition = some node.kind
  depth : node.depth = c.applicationDepth args
  nesting : node.depth ≤ Limits.nesting

/-- The form of a type fits the catalogue. -/
def FormFits (c : Catalog) (id : TypeId) (node : Node) : Prop :=
  match node.form with
  | .plain => node.depth = 0
  | .parameter _ => node.depth = 0 ∧ node.kind = .classType
  | .definition params => node.depth = 0 ∧ c.OwnParams id params
  | .application definition args => c.AppliedTo id node definition args

/-- The links of a type fit the catalogue: a class may have a class as its base,
any declared type may have interfaces, and a type parameter has neither. -/
structure LinksFit (c : Catalog) (node : Node) : Prop where
  base : ∀ {b}, node.base = some b → c.kind? b = some .classType ∧ c.isParameter b = false
  interfaces : ∀ {i}, i ∈ node.interfaces → c.kind? i = some .interfaceType
  ofInterface : node.kind = .interfaceType → node.base = none
  ofParameter : node.isParameter = true → node.base = none ∧ node.interfaces = []

/-- A catalogue as the operations build it. -/
structure WellFormed (c : Catalog) : Prop where
  forms : ∀ {id node}, c.node? id = some node → c.FormFits id node
  links : ∀ {id node}, c.node? id = some node → c.LinksFit node
  /-- The index leads to the applications, to all of them and to nothing else. -/
  applications : ∀ {definition args id},
    c.applications[(definition, args)]? = some id ↔
      c.form? id = some (.application definition args)
  room : c.applications.size ≤ Limits.applications
  /-- A declared name leads to a declared type of that name. -/
  declared : ∀ {name id}, c.declared[name]? = some id →
    ∃ node, c.node? id = some node ∧ node.name = name ∧ node.isParameter = false ∧
      node.isApplication = false

/-! ## 3. Reading a form -/

section

variable {c : Catalog} {id definition : TypeId} {node : Node} {params args : List TypeId}

theorem form?_eq_some {form : Form} :
    c.form? id = some form ↔ ∃ node, c.node? id = some node ∧ node.form = form :=
  Option.map_eq_some_iff

theorem form?_of_node? (h : c.node? id = some node) : c.form? id = some node.form := by
  rw [form?, h]; rfl

theorem knows_iff : c.knows id = true ↔ id.index < c.size := by
  rw [knows, node?, isSome_getElem?]
  rfl

theorem knows_of_node? (h : c.node? id = some node) : c.knows id = true := by
  rw [knows, h]; rfl

theorem node?_of_knows (h : c.knows id = true) : ∃ node, c.node? id = some node :=
  Option.isSome_iff_exists.mp h

theorem knows_of_form? {form : Form} (h : c.form? id = some form) : c.knows id = true := by
  obtain ⟨node, hnode, -⟩ := form?_eq_some.mp h
  exact knows_of_node? hnode

theorem knows_of_isParameter (h : c.isParameter id = true) : c.knows id = true := by
  obtain ⟨node, hnode, -⟩ := (Option.any_eq_true _ _).mp h
  exact knows_of_node? hnode

theorem knows_of_kind? {kind : Kind} (h : c.kind? id = some kind) : c.knows id = true := by
  obtain ⟨node, hnode, -⟩ := Option.map_eq_some_iff.mp h
  exact knows_of_node? hnode

/-- What is older than a known type is known. -/
theorem knows_of_lt {a : TypeId} (h : c.knows id = true) (hlt : a.index < id.index) :
    c.knows a = true := by
  rw [knows_iff] at h ⊢
  omega

theorem params_of_definition (h : c.form? id = some (.definition params)) :
    c.params id = params := by
  obtain ⟨node, hnode, hform⟩ := form?_eq_some.mp h
  simp [Catalog.params, hnode, Node.params, hform]

theorem args_of_definition (h : c.form? id = some (.definition params)) : c.args id = params := by
  obtain ⟨node, hnode, hform⟩ := form?_eq_some.mp h
  simp [Catalog.args, hnode, Node.args, hform]

theorem args_of_application (h : c.form? id = some (.application definition args)) :
    c.args id = args := by
  obtain ⟨node, hnode, hform⟩ := form?_eq_some.mp h
  simp [Catalog.args, hnode, Node.args, hform]

theorem definition?_of_definition (h : c.form? id = some (.definition params)) :
    c.definition? id = some id := by
  unfold form? at h
  rw [definition?, h]

theorem definition?_of_application (h : c.form? id = some (.application definition args)) :
    c.definition? id = some definition := by
  unfold form? at h
  rw [definition?, h]

/-- A generic type is an open definition or an application. -/
theorem definition?_eq_some (h : c.definition? id = some definition) :
    (∃ params, c.form? id = some (.definition params) ∧ definition = id) ∨
      ∃ args, c.form? id = some (.application definition args) := by
  unfold definition? at h
  unfold form?
  split at h
  · rename_i params hform
    exact .inl ⟨params, hform, (Option.some.inj h).symm⟩
  · rename_i d args hform
    exact .inr ⟨args, hform.trans (by rw [Option.some.inj h])⟩
  · cases h

theorem isDefinition_iff :
    c.isDefinition id = true ↔ ∃ params, c.form? id = some (.definition params) := by
  constructor
  · intro h
    obtain ⟨node, hnode, hdef⟩ := (Option.any_eq_true _ _).mp h
    unfold Node.isDefinition at hdef
    split at hdef
    · rename_i params hform
      exact ⟨params, form?_eq_some.mpr ⟨node, hnode, hform⟩⟩
    · cases hdef
  · rintro ⟨params, h⟩
    obtain ⟨node, hnode, hform⟩ := form?_eq_some.mp h
    simp [isDefinition, hnode, Node.isDefinition, hform]

theorem isParameter_iff :
    c.isParameter id = true ↔ ∃ position, c.form? id = some (.parameter position) := by
  constructor
  · intro h
    obtain ⟨node, hnode, hparam⟩ := (Option.any_eq_true _ _).mp h
    unfold Node.isParameter at hparam
    split at hparam
    · rename_i position hform
      exact ⟨position, form?_eq_some.mpr ⟨node, hnode, hform⟩⟩
    · cases hparam
  · rintro ⟨position, h⟩
    obtain ⟨node, hnode, hform⟩ := form?_eq_some.mp h
    simp [isParameter, hnode, Node.isParameter, hform]

theorem definition?_of_isParameter (h : c.isParameter id = true) : c.definition? id = none := by
  obtain ⟨position, hform⟩ := isParameter_iff.mp h
  unfold form? at hform
  rw [definition?, hform]

theorem isApplication_iff :
    node.isApplication = true ↔ ∃ definition args, node.form = .application definition args := by
  unfold Node.isApplication
  cases node.form <;> simp

/-- Types that are not generic have no arguments. -/
theorem args_of_definition?_none (h : c.definition? id = none) : c.args id = [] := by
  unfold definition? at h
  unfold Catalog.args
  cases hnode : c.node? id with
  | none => rfl
  | some node =>
    rw [hnode, Option.map_some] at h
    simp only [Option.map_some, Option.getD_some, Node.args]
    split at h <;> simp_all

end

/-! ## 4. Trees of a well-formed catalogue -/

section

variable {c : Catalog} {id definition : TypeId} {params args : List TypeId}

theorem WellFormed.ownParams (hc : c.WellFormed) (h : c.form? id = some (.definition params)) :
    c.OwnParams id params := by
  obtain ⟨node, hnode, hform⟩ := form?_eq_some.mp h
  have hfits := hc.forms hnode
  unfold FormFits at hfits
  rw [hform] at hfits
  exact hfits.2

theorem WellFormed.appliedTo (hc : c.WellFormed)
    (h : c.form? id = some (.application definition args)) :
    ∃ node, c.node? id = some node ∧ c.AppliedTo id node definition args := by
  obtain ⟨node, hnode, hform⟩ := form?_eq_some.mp h
  have hfits := hc.forms hnode
  unfold FormFits at hfits
  rw [hform] at hfits
  exact ⟨node, hnode, hfits⟩

theorem tree_of_definition?_none (h : c.definition? id = none) : c.tree id = .leaf id := by
  unfold definition? at h
  rw [tree]
  cases hnode : c.node? id with
  | none => rfl
  | some node =>
    rw [hnode, Option.map_some] at h
    cases hform : node.form <;> simp only [hform] at h ⊢ <;> cases h

theorem tree_of_definition (h : c.form? id = some (.definition params)) :
    c.tree id = .apply id (params.map .leaf) := by
  obtain ⟨node, hnode, hform⟩ := form?_eq_some.mp h
  rw [tree, hnode]
  simp only [hform]

theorem WellFormed.tree_of_application (hc : c.WellFormed)
    (h : c.form? id = some (.application definition args)) :
    c.tree id = .apply definition (args.map c.tree) := by
  obtain ⟨node, hnode, happ⟩ := hc.appliedTo h
  obtain ⟨_, hnode', hform⟩ := form?_eq_some.mp h
  cases hnode.symm.trans hnode'
  have holder : olderThan id args = args :=
    List.filter_eq_self.mpr fun a ha => decide_eq_true (happ.args_older a ha)
  rw [tree, hnode]
  simp only [hform]
  rw [List.attach_map_val, holder]

theorem WellFormed.isParameter_of_mem_params (hc : c.WellFormed)
    (h : c.form? id = some (.definition params)) {p : TypeId} (hp : p ∈ params) :
    c.isParameter p = true := by
  obtain ⟨i, hi⟩ := List.getElem?_of_mem hp
  exact isParameter_iff.mpr ⟨i, (hc.ownParams h).positions hi⟩

theorem WellFormed.tree_of_mem_params (hc : c.WellFormed)
    (h : c.form? id = some (.definition params)) {p : TypeId} (hp : p ∈ params) :
    c.tree p = .leaf p :=
  tree_of_definition?_none (definition?_of_isParameter (hc.isParameter_of_mem_params h hp))

/-- An argument that is not older than the type is a parameter of it. -/
theorem WellFormed.args_of_not_older (hc : c.WellFormed) {a : TypeId} (ha : a ∈ c.args id)
    (hge : ¬ a.index < id.index) : c.args a = [] := by
  cases hdef : c.definition? id with
  | none =>
    rw [args_of_definition?_none hdef] at ha
    cases ha
  | some d =>
    rcases definition?_eq_some hdef with ⟨params, hform, -⟩ | ⟨args, hform⟩
    · rw [args_of_definition hform] at ha
      exact args_of_definition?_none
        (definition?_of_isParameter (hc.isParameter_of_mem_params hform ha))
    · rw [args_of_application hform] at ha
      obtain ⟨node, -, happ⟩ := hc.appliedTo hform
      exact absurd (happ.args_older a ha) hge

/-- Induction along arguments. The arguments of an application are older than it,
and the parameters of an open definition have no arguments. -/
theorem WellFormed.args_induction (hc : c.WellFormed) {motive : TypeId → Prop}
    (step : ∀ id, (∀ a ∈ c.args id, motive a) → motive id) (id : TypeId) : motive id := by
  suffices h : ∀ n (a : TypeId), a.index < n → motive a from
    h (id.index + 1) id (Nat.lt_succ_self _)
  intro n
  induction n with
  | zero => intro a hlt; omega
  | succ n ih =>
    intro a hlt
    refine step a fun b hb => ?_
    by_cases holder : b.index < a.index
    · exact ih b (by omega)
    · have hnone := hc.args_of_not_older hb holder
      exact step b (by simp [hnone])

theorem WellFormed.knows_of_mem_args (hc : c.WellFormed) {a : TypeId} (ha : a ∈ c.args id) :
    c.knows a = true := by
  cases hdef : c.definition? id with
  | none =>
    rw [args_of_definition?_none hdef] at ha
    cases ha
  | some d =>
    rcases definition?_eq_some hdef with ⟨params, hform, -⟩ | ⟨args, hform⟩
    · rw [args_of_definition hform] at ha
      exact knows_of_isParameter (hc.isParameter_of_mem_params hform ha)
    · rw [args_of_application hform] at ha
      obtain ⟨node, -, happ⟩ := hc.appliedTo hform
      exact knows_of_lt (knows_of_form? hform) (happ.args_older a ha)

theorem WellFormed.knows_of_application? (hc : c.WellFormed) (hdef : c.knows definition = true)
    (h : c.application? definition args = some id) : c.knows id = true := by
  unfold application? at h
  split at h
  · cases h
    exact hdef
  · exact knows_of_form? (hc.applications.mp h)

theorem WellFormed.knows_of_lookupName? (hc : c.WellFormed) {name : String}
    (h : c.lookupName? name = some id) : c.knows id = true := by
  obtain ⟨node, hnode, -⟩ := hc.declared h
  exact knows_of_node? hnode

theorem form?_of_mem_params {p : TypeId} (h : p ∈ c.params id) :
    c.form? id = some (.definition (c.params id)) := by
  cases hnode : c.node? id with
  | none =>
    rw [params, hnode] at h
    cases h
  | some node =>
    rw [params, hnode, Option.map_some, Option.getD_some] at h ⊢
    rw [form?_of_node? hnode]
    unfold Node.params at h ⊢
    split at h
    · rename_i hform
      rw [hform]
    · cases h

/-- A generic type is its definition over its arguments, whether it is an
application or the definition itself. -/
theorem WellFormed.tree_of_definition? (hc : c.WellFormed)
    (h : c.definition? id = some definition) :
    c.tree id = .apply definition ((c.args id).map c.tree) := by
  rcases definition?_eq_some h with ⟨params, hform, rfl⟩ | ⟨args, hform⟩
  · rw [tree_of_definition hform, args_of_definition hform]
    congr 1
    exact List.map_congr_left fun p hp => (hc.tree_of_mem_params hform hp).symm
  · rw [hc.tree_of_application hform, args_of_application hform]

/-- Only a type that is not generic is a leaf, and it is that leaf. -/
theorem WellFormed.eq_of_tree_eq_leaf (hc : c.WellFormed) {a : TypeId}
    (h : c.tree id = .leaf a) : id = a := by
  cases hdef : c.definition? id with
  | none =>
    rw [tree_of_definition?_none hdef] at h
    exact TypeTree.leaf.inj h
  | some d =>
    rw [hc.tree_of_definition? hdef] at h
    cases h

theorem WellFormed.definition?_of_tree (hc : c.WellFormed) {trees : List TypeTree}
    (h : c.tree id = .apply definition trees) :
    c.definition? id = some definition ∧ (c.args id).map c.tree = trees := by
  cases hdef : c.definition? id with
  | none =>
    rw [tree_of_definition?_none hdef] at h
    cases h
  | some d =>
    rw [hc.tree_of_definition? hdef] at h
    obtain ⟨rfl, rfl⟩ := TypeTree.apply.inj h
    exact ⟨rfl, rfl⟩

/-- An application is not the tree of an open definition: its arguments are
others than the parameters. -/
theorem WellFormed.not_areOwnParams (hc : c.WellFormed)
    (h : c.form? id = some (.application definition args)) :
    c.areOwnParams definition (args.map c.tree) = false := by
  obtain ⟨node, -, happ⟩ := hc.appliedTo h
  rw [Bool.eq_false_iff]
  intro hown
  exact happ.not_own
    (eq_of_map_eq_map (areOwnParams_iff.mp hown) fun a _ b hab => hc.eq_of_tree_eq_leaf hab)

theorem isApplied_tree_of_definition (h : c.form? id = some (.definition params)) :
    c.isApplied (c.tree id) = false := by
  rw [tree_of_definition h, isApplied, Bool.not_eq_false', areOwnParams_iff,
    params_of_definition h]

/-- The applications of a catalogue are the types whose tree is one. -/
theorem WellFormed.isApplied_tree_iff (hc : c.WellFormed) :
    c.isApplied (c.tree id) = true ↔
      ∃ definition args, c.form? id = some (.application definition args) := by
  constructor
  · intro h
    cases hdef : c.definition? id with
    | none =>
      rw [tree_of_definition?_none hdef] at h
      cases h
    | some d =>
      rcases definition?_eq_some hdef with ⟨params, hform, rfl⟩ | ⟨args, hform⟩
      · rw [isApplied_tree_of_definition hform] at h
        cases h
      · exact ⟨d, args, hform⟩
  · rintro ⟨d, args, hform⟩
    rw [hc.tree_of_application hform, isApplied, hc.not_areOwnParams hform]
    rfl

/-- A type is known by its tree. By induction on the number: two applications
with the same tree have the same definition and, their arguments being older,
the same arguments, and the index holds one number for these. -/
theorem WellFormed.tree_injective (hc : c.WellFormed) : Function.Injective c.tree := by
  suffices h : ∀ n (a b : TypeId), a.index < n → c.tree a = c.tree b → a = b by
    intro a b hab
    exact h (a.index + 1) a b (Nat.lt_succ_self _) hab
  intro n
  induction n with
  | zero => intro a b hlt; exact absurd hlt (Nat.not_lt_zero _)
  | succ n ih =>
    intro a b hlt hab
    cases hdef : c.definition? a with
    | none =>
      rw [tree_of_definition?_none hdef] at hab
      exact (hc.eq_of_tree_eq_leaf hab.symm).symm
    | some d =>
      have htree := hc.tree_of_definition? hdef
      obtain ⟨hdef', hargs⟩ := hc.definition?_of_tree (hab.symm.trans htree)
      rcases definition?_eq_some hdef with ⟨params, hform, rfl⟩ | ⟨as, hform⟩ <;>
        rcases definition?_eq_some hdef' with ⟨params', hform', heq⟩ | ⟨as', hform'⟩
      · exact heq
      · -- an open definition and an application of it
        have happ := hc.isApplied_tree_iff.mpr ⟨d, as', hform'⟩
        rw [← hab, isApplied_tree_of_definition hform] at happ
        cases happ
      · have happ := hc.isApplied_tree_iff.mpr ⟨d, as, hform⟩
        rw [hab, isApplied_tree_of_definition hform'] at happ
        cases happ
      · obtain ⟨node, -, happ⟩ := hc.appliedTo hform
        rw [args_of_application hform, args_of_application hform'] at hargs
        have has : as = as' := eq_of_map_eq_map hargs.symm fun x hx y hxy =>
          ih x y (Nat.lt_of_lt_of_le (happ.args_older x hx) (Nat.le_of_lt_succ hlt)) hxy
        subst has
        have ha := hc.applications.mpr hform
        have hb := hc.applications.mpr hform'
        exact Option.some.inj (ha.symm.trans hb)

/-- The application of a definition to arguments is the type with that tree. -/
theorem WellFormed.application?_eq_some_iff (hc : c.WellFormed) :
    c.application? definition args = some id ↔ c.tree id = .apply definition (args.map c.tree) := by
  constructor
  · intro h
    unfold application? at h
    split at h
    · rename_i hown
      cases h
      simp only [Bool.and_eq_true, Bool.not_eq_true', List.isEmpty_eq_false_iff, beq_iff_eq]
        at hown
      obtain ⟨hne, rfl⟩ := hown
      obtain ⟨p, hp⟩ := List.exists_mem_of_ne_nil _ hne
      have hform := form?_of_mem_params hp
      rw [hc.tree_of_definition? (definition?_of_definition hform), args_of_definition hform]
    · exact hc.tree_of_application (hc.applications.mp h)
  · intro h
    obtain ⟨hdef, hargs⟩ := hc.definition?_of_tree h
    obtain rfl := eq_of_map_eq_map hargs fun a _ b hab => hc.tree_injective hab
    unfold application?
    rcases definition?_eq_some hdef with ⟨params, hform, rfl⟩ | ⟨args, hform⟩
    · have hne := (hc.ownParams hform).nonempty
      rw [args_of_definition hform, params_of_definition hform, if_pos (by simp [hne])]
    · obtain ⟨node, -, happ⟩ := hc.appliedTo hform
      have hne := happ.not_own.symm
      rw [args_of_application hform, if_neg (by simp [hne])]
      exact hc.applications.mpr hform

/-! ## 5. Depth -/

theorem foldl_max (l : List Nat) (n : Nat) : l.foldl max n = max n (l.foldl max 0) := by
  induction l generalizing n with
  | nil => simp
  | cons a rest ih =>
    rw [List.foldl_cons, List.foldl_cons, ih, ih (max 0 a)]
    omega

theorem le_foldl_max {l : List Nat} {n : Nat} (h : n ∈ l) : n ≤ l.foldl max 0 := by
  induction l with
  | nil => cases h
  | cons m rest ih =>
    rw [List.foldl_cons, foldl_max]
    rcases List.mem_cons.mp h with rfl | h
    · omega
    · have := ih h
      omega

/-- Depths that agree type by type agree for a list of arguments. -/
theorem treesDepth_map_tree (h : ∀ a ∈ args, c.depth a = c.treeDepth (c.tree a)) :
    c.treesDepth (args.map c.tree) = (args.map c.depth).foldl max 0 := by
  induction args with
  | nil => rfl
  | cons a rest ih =>
    have hrest := ih fun b hb => h b (List.mem_cons_of_mem _ hb)
    rw [List.map_cons, List.map_cons, List.foldl_cons, foldl_max, treesDepth, hrest,
      ← h a List.mem_cons_self, Nat.zero_max]

/-- Types that are no applications nest nothing. -/
theorem WellFormed.depth_eq_zero (hc : c.WellFormed)
    (h : ∀ d args, c.form? id ≠ some (.application d args)) : c.depth id = 0 := by
  cases hnode : c.node? id with
  | none => rw [depth, hnode]; rfl
  | some node =>
    have hfits := hc.forms hnode
    rw [depth, hnode, Option.map_some, Option.getD_some]
    unfold FormFits at hfits
    cases hform : node.form with
    | plain => rw [hform] at hfits; exact hfits
    | parameter position => rw [hform] at hfits; exact hfits.1
    | definition params => rw [hform] at hfits; exact hfits.1
    | application d args => exact absurd (form?_eq_some.mpr ⟨node, hnode, hform⟩) (h d args)

theorem WellFormed.depth_le (hc : c.WellFormed) (id : TypeId) : c.depth id ≤ Limits.nesting := by
  by_cases h : ∃ d args, c.form? id = some (.application d args)
  · obtain ⟨d, args, hform⟩ := h
    obtain ⟨node, hnode, happ⟩ := hc.appliedTo hform
    rw [depth, hnode]
    exact happ.nesting
  · rw [hc.depth_eq_zero fun d args hform => h ⟨d, args, hform⟩]
    exact Nat.zero_le _

/-- The depth noted for a type is the nesting depth of its tree. -/
theorem WellFormed.depth_eq_treeDepth (hc : c.WellFormed) (id : TypeId) :
    c.depth id = c.treeDepth (c.tree id) := by
  suffices h : ∀ n (a : TypeId), a.index < n → c.depth a = c.treeDepth (c.tree a) from
    h (id.index + 1) id (Nat.lt_succ_self _)
  intro n
  induction n with
  | zero => intro a hlt; exact absurd hlt (Nat.not_lt_zero _)
  | succ n ih =>
    intro a hlt
    cases hdef : c.definition? a with
    | none =>
      rw [tree_of_definition?_none hdef, treeDepth]
      refine hc.depth_eq_zero fun d args hform => ?_
      rw [definition?_of_application hform] at hdef
      cases hdef
    | some d =>
      rcases definition?_eq_some hdef with ⟨params, hform, rfl⟩ | ⟨as, hform⟩
      · have hown : c.areOwnParams d (params.map leaf) = true :=
          areOwnParams_iff.mpr (by rw [params_of_definition hform])
        rw [tree_of_definition hform, treeDepth, if_pos hown]
        refine hc.depth_eq_zero fun d args happ => ?_
        cases hform.symm.trans happ
      · obtain ⟨node, hnode, happ⟩ := hc.appliedTo hform
        rw [hc.tree_of_application hform, treeDepth, hc.not_areOwnParams hform,
          treesDepth_map_tree fun b hb => ih b (Nat.lt_of_lt_of_le (happ.args_older b hb)
            (Nat.le_of_lt_succ hlt)), depth, hnode]
        exact happ.depth

end

/-! ## 6. Catalogues that keep the types of another -/

/-- `c'` has every type of `c`, with the same number; links may differ. -/
def Preserves (c c' : Catalog) : Prop :=
  ∀ ⦃id node⦄, c.node? id = some node → ∃ node', c'.node? id = some node' ∧ node'.Alike node

namespace Preserves

variable {c c' : Catalog} {id : TypeId}

theorem refl (c : Catalog) : c.Preserves c :=
  fun _ _ hnode => ⟨_, hnode, .refl _⟩

theorem trans {c'' : Catalog} (h : c.Preserves c') (h' : c'.Preserves c'') : c.Preserves c'' := by
  intro id node hnode
  obtain ⟨node', hnode', halike⟩ := h hnode
  obtain ⟨node'', hnode'', halike'⟩ := h' hnode'
  exact ⟨node'', hnode'', halike'.trans halike⟩

theorem knows (h : c.Preserves c') (hid : c.knows id = true) : c'.knows id = true := by
  obtain ⟨node, hnode⟩ := node?_of_knows hid
  obtain ⟨node', hnode', -⟩ := h hnode
  exact knows_of_node? hnode'

theorem size_le (h : c.Preserves c') : c.size ≤ c'.size := by
  refine Nat.le_of_not_lt fun hlt => ?_
  have hknown : c.knows ⟨c'.size⟩ = true := knows_iff.mpr hlt
  exact Nat.lt_irrefl _ (knows_iff.mp (h.knows hknown))

theorem form?_eq (h : c.Preserves c') (hid : c.knows id = true) : c'.form? id = c.form? id := by
  obtain ⟨node, hnode⟩ := node?_of_knows hid
  obtain ⟨node', hnode', halike⟩ := h hnode
  rw [form?_of_node? hnode, form?_of_node? hnode', halike.form]

theorem form? (h : c.Preserves c') {form : Form} (hform : c.form? id = some form) :
    c'.form? id = some form :=
  (h.form?_eq (knows_of_form? hform)).trans hform

theorem kind? (h : c.Preserves c') {kind : Kind} (hkind : c.kind? id = some kind) :
    c'.kind? id = some kind := by
  obtain ⟨node, hnode, rfl⟩ := Option.map_eq_some_iff.mp hkind
  obtain ⟨node', hnode', halike⟩ := h hnode
  rw [Catalog.kind?, hnode', Option.map_some, halike.kind]

theorem depth (h : c.Preserves c') (hid : c.knows id = true) : c'.depth id = c.depth id := by
  obtain ⟨node, hnode⟩ := node?_of_knows hid
  obtain ⟨node', hnode', halike⟩ := h hnode
  rw [Catalog.depth, Catalog.depth, hnode, hnode', Option.map_some, Option.map_some, halike.depth]

theorem name (h : c.Preserves c') (hid : c.knows id = true) : c'.name id = c.name id := by
  obtain ⟨node, hnode⟩ := node?_of_knows hid
  obtain ⟨node', hnode', halike⟩ := h hnode
  rw [Catalog.name, Catalog.name, hnode, hnode', Option.map_some, Option.map_some, halike.name]

theorem definition? (h : c.Preserves c') (hid : c.knows id = true) :
    c'.definition? id = c.definition? id := by
  have hform := h.form?_eq hid
  unfold Catalog.form? at hform
  rw [Catalog.definition?, Catalog.definition?, hform]

theorem unbound (h : c.Preserves c') (hid : c.knows id = true) :
    c'.unbound id = c.unbound id := by
  rw [Catalog.unbound, Catalog.unbound, h.definition? hid]

theorem isParameter (h : c.Preserves c') (hid : c.knows id = true) :
    c'.isParameter id = c.isParameter id := by
  rw [Bool.eq_iff_iff, isParameter_iff, isParameter_iff, h.form?_eq hid]

theorem applicationDepth (h : c.Preserves c') {args : List TypeId}
    (hargs : ∀ a ∈ args, c.knows a = true) :
    c'.applicationDepth args = c.applicationDepth args := by
  rw [Catalog.applicationDepth, Catalog.applicationDepth,
    List.map_congr_left fun a ha => h.depth (hargs a ha)]

theorem params_of_knows (h : c.Preserves c') (hid : c.knows id = true) :
    c'.params id = c.params id := by
  obtain ⟨node, hnode⟩ := node?_of_knows hid
  obtain ⟨node', hnode', halike⟩ := h hnode
  rw [Catalog.params, Catalog.params, hnode, hnode', Option.map_some, Option.map_some,
    Node.params, Node.params, halike.form]

/-- With applications alone beside them, the open definitions are the same. -/
theorem params (h : c.Preserves c')
    (added : ∀ ⦃id node⦄, c'.node? id = some node → c.knows id = false →
      node.isApplication = true) (d : TypeId) : c'.params d = c.params d := by
  cases hnode : c.node? d with
  | some node => exact h.params_of_knows (knows_of_node? hnode)
  | none =>
    cases hnode' : c'.node? d with
    | none => rw [Catalog.params, Catalog.params, hnode, hnode']
    | some node =>
      obtain ⟨d', args, hform⟩ := isApplication_iff.mp
        (added hnode' (by rw [Catalog.knows, hnode]; rfl))
      simp [Catalog.params, hnode, hnode', Node.params, hform]

/-- Types that are kept keep their trees. -/
theorem tree (h : c.Preserves c') (hid : c.knows id = true) : c'.tree id = c.tree id := by
  suffices ht : ∀ n (a : TypeId), a.index < n → c.knows a = true → c'.tree a = c.tree a from
    ht (id.index + 1) id (Nat.lt_succ_self _) hid
  intro n
  induction n with
  | zero => intro a hlt; exact absurd hlt (Nat.not_lt_zero _)
  | succ n ih =>
    intro a hlt ha
    obtain ⟨node, hnode⟩ := node?_of_knows ha
    obtain ⟨node', hnode', halike⟩ := h hnode
    rw [Catalog.tree, Catalog.tree, hnode, hnode']
    simp only [halike.form]
    cases node.form with
    | plain => rfl
    | parameter position => rfl
    | definition params => rfl
    | application d args =>
      simp only [List.attach_map_val]
      congr 1
      refine List.map_congr_left fun b hb => ?_
      have hlt' := index_lt_of_mem_olderThan hb
      exact ih b (by omega) (knows_of_lt ha hlt')

end Preserves

/-- The form of a type still fits when the catalogue has changed around it. -/
theorem FormFits.mono {c c' : Catalog} {id : TypeId} {node node' : Node} (hp : c.Preserves c')
    (hid : c.knows id = true) (halike : node'.Alike node) (h : c.FormFits id node) :
    c'.FormFits id node' := by
  unfold FormFits at h ⊢
  rw [halike.form]
  cases hform : node.form with
  | plain =>
    rw [hform] at h
    exact halike.depth.trans h
  | parameter position =>
    rw [hform] at h
    exact ⟨halike.depth.trans h.1, halike.kind.trans h.2⟩
  | definition params =>
    rw [hform] at h
    exact ⟨halike.depth.trans h.1, h.2.nonempty, h.2.following,
      fun hp' => hp.form? (h.2.positions hp')⟩
  | application d args =>
    rw [hform] at h
    have happ : c.AppliedTo id node d args := h
    obtain ⟨params, hd⟩ := isDefinition_iff.mp happ.isDefinition
    have hd' := hp.form? hd
    have hparams : c'.params d = c.params d := by
      rw [params_of_definition hd, params_of_definition hd']
    exact
      { isDefinition := isDefinition_iff.mpr ⟨params, hd'⟩
        definition_older := happ.definition_older
        args_older := happ.args_older
        arity := by rw [hparams]; exact happ.arity
        not_own := by rw [hparams]; exact happ.not_own
        name := by rw [hp.name (knows_of_form? hd), halike.name]; exact happ.name
        kind := by rw [halike.kind]; exact hp.kind? happ.kind
        depth := by
          rw [halike.depth, hp.applicationDepth fun a ha => knows_of_lt hid (happ.args_older a ha)]
          exact happ.depth
        nesting := by rw [halike.depth]; exact happ.nesting }

theorem LinksFit.mono {c c' : Catalog} {node : Node} (hp : c.Preserves c') (h : c.LinksFit node) :
    c'.LinksFit node where
  base := by
    intro b hb
    obtain ⟨hkind, hparam⟩ := h.base hb
    refine ⟨hp.kind? hkind, ?_⟩
    rw [hp.isParameter (knows_of_kind? hkind)]
    exact hparam
  interfaces hi := hp.kind? (h.interfaces hi)
  ofInterface := h.ofInterface
  ofParameter := h.ofParameter

end Catalog

end Generics

/-
Generics.Proofs.Catalog.Embedding — one catalogue inside another.

A number means something in its own catalogue only. Two catalogues that were
built from the same declarations, in another order or with other applications
beside them, are compared by a renaming of numbers: `Embeds φ c c'` says that
everything behind a number of `c` stands behind the renamed number of `c'`, with
the numbers in it renamed. Whatever is asked about a type of `c` has then the
renamed answer in `c'`, and the same text where the answer is text.

It is enough to rename the types that a catalogue knows (`WellFormed.embeds`).
-/
import Mathlib.Data.List.Basic
import Generics.Proofs.Catalog.Operations

namespace Generics

open TypeTree

/-! ## 1. Renaming -/

/-- A form with other numbers. -/
def Form.rename (φ : TypeId → TypeId) : Form → Form
  | .plain => .plain
  | .parameter position => .parameter position
  | .definition params => .definition (params.map φ)
  | .application d args => .application (φ d) (args.map φ)

namespace Node

/-- A node with other numbers. -/
def rename (φ : TypeId → TypeId) (n : Node) : Node :=
  { n with form := n.form.rename φ, base := n.base.map φ, interfaces := n.interfaces.map φ }

variable (φ : TypeId → TypeId) (n : Node)

@[simp] theorem name_rename : (n.rename φ).name = n.name := rfl

@[simp] theorem kind_rename : (n.rename φ).kind = n.kind := rfl

@[simp] theorem depth_rename : (n.rename φ).depth = n.depth := rfl

@[simp] theorem form_rename : (n.rename φ).form = n.form.rename φ := rfl

@[simp] theorem base_rename : (n.rename φ).base = n.base.map φ := rfl

@[simp] theorem interfaces_rename : (n.rename φ).interfaces = n.interfaces.map φ := rfl

@[simp] theorem isParameter_rename : (n.rename φ).isParameter = n.isParameter := by
  simp only [isParameter, form_rename]
  cases n.form <;> rfl

@[simp] theorem isDefinition_rename : (n.rename φ).isDefinition = n.isDefinition := by
  simp only [isDefinition, form_rename]
  cases n.form <;> rfl

@[simp] theorem args_rename : (n.rename φ).args = n.args.map φ := by
  simp only [args, form_rename]
  cases n.form <;> rfl

@[simp] theorem params_rename : (n.rename φ).params = n.params.map φ := by
  simp only [params, form_rename]
  cases n.form <;> rfl

theorem rename_self : n.rename (fun x => x) = n := by
  cases n with
  | mk name kind form depth base interfaces => cases form <;> simp [rename, Form.rename]

end Node

namespace Catalog

/-- Everything behind a number of `c` stands behind the renamed number of `c'`. -/
structure Embeds (φ : TypeId → TypeId) (c c' : Catalog) : Prop where
  source : c.WellFormed
  target : c'.WellFormed
  injective : Function.Injective φ
  node? : ∀ id, c'.node? (φ id) = (c.node? id).map (Node.rename φ)
  lookupName? : ∀ name, c'.lookupName? name = (c.lookupName? name).map φ

/-! ## 2. What is asked about a type -/

/-- The text of an application has the texts of its arguments. -/
theorem WellFormed.display_of_application {c : Catalog} (hc : c.WellFormed) {id definition : TypeId}
    {args : List TypeId} (hform : c.form? id = some (.application definition args)) :
    c.display id = c.name id ++ Text.bracketed (args.map c.display) := by
  obtain ⟨node, hnode, happ⟩ := hc.appliedTo hform
  obtain ⟨_, hnode', hnform⟩ := form?_eq_some.mp hform
  cases hnode.symm.trans hnode'
  have holder : olderThan id args = args :=
    List.filter_eq_self.mpr fun a ha => decide_eq_true (happ.args_older a ha)
  rw [display, hnode]
  simp only [hnform]
  rw [List.attach_map_val, holder, name, hnode]
  rfl

namespace Embeds

variable {φ : TypeId → TypeId} {c c' : Catalog} {d x : TypeId}

theorem knows (h : Embeds φ c c') (id : TypeId) : c'.knows (φ id) = c.knows id := by
  simp [Catalog.knows, h.node?]

theorem name (h : Embeds φ c c') (id : TypeId) : c'.name (φ id) = c.name id := by
  simp only [Catalog.name, h.node?, Option.map_map]
  rfl

theorem form? (h : Embeds φ c c') (id : TypeId) :
    c'.form? (φ id) = (c.form? id).map (Form.rename φ) := by
  simp only [Catalog.form?, h.node?, Option.map_map]
  rfl

theorem args (h : Embeds φ c c') (id : TypeId) : c'.args (φ id) = (c.args id).map φ := by
  simp only [Catalog.args, h.node?]
  cases c.node? id <;> simp

theorem params (h : Embeds φ c c') (id : TypeId) : c'.params (φ id) = (c.params id).map φ := by
  simp only [Catalog.params, h.node?]
  cases c.node? id <;> simp

theorem base? (h : Embeds φ c c') (id : TypeId) : c'.base? (φ id) = (c.base? id).map φ := by
  simp only [Catalog.base?, h.node?]
  cases c.node? id <;> simp

theorem interfaces (h : Embeds φ c c') (id : TypeId) :
    c'.interfaces (φ id) = (c.interfaces id).map φ := by
  simp only [Catalog.interfaces, h.node?]
  cases c.node? id <;> simp

theorem isParameter (h : Embeds φ c c') (id : TypeId) :
    c'.isParameter (φ id) = c.isParameter id := by
  simp only [Catalog.isParameter, h.node?]
  cases c.node? id <;> simp

theorem isDefinition (h : Embeds φ c c') (id : TypeId) :
    c'.isDefinition (φ id) = c.isDefinition id := by
  simp only [Catalog.isDefinition, h.node?]
  cases c.node? id <;> simp

theorem definition? (h : Embeds φ c c') (id : TypeId) :
    c'.definition? (φ id) = (c.definition? id).map φ := by
  have hform := h.form? id
  simp only [Catalog.form?] at hform
  simp only [Catalog.definition?, hform]
  cases (c.node? id).map Node.form with
  | none => rfl
  | some form => cases form <;> rfl

theorem unbound (h : Embeds φ c c') (id : TypeId) : c'.unbound (φ id) = φ (c.unbound id) := by
  simp only [Catalog.unbound, h.definition?]
  cases c.definition? id <;> rfl

theorem tree (h : Embeds φ c c') (id : TypeId) : c'.tree (φ id) = (c.tree id).rename φ := by
  induction id using h.source.args_induction with
  | step id ih =>
    have hdef := h.definition? id
    cases hd : c.definition? id with
    | none =>
      rw [hd, Option.map_none] at hdef
      rw [tree_of_definition?_none hd, tree_of_definition?_none hdef, rename_leaf]
    | some d =>
      rw [hd, Option.map_some] at hdef
      rw [h.source.tree_of_definition? hd, h.target.tree_of_definition? hdef, h.args, rename_apply,
        List.map_map, List.map_map]
      congr 1
      exact List.map_congr_left ih

/-- Known types have the same text. -/
theorem display (h : Embeds φ c c') {id : TypeId} (hid : c.knows id = true) :
    c'.display (φ id) = c.display id := by
  induction id using h.source.args_induction with
  | step id ih =>
    obtain ⟨node, hnode⟩ := node?_of_knows hid
    have hnode' := h.node? id
    rw [hnode, Option.map_some] at hnode'
    cases hform : node.form with
    | plain =>
      rw [Catalog.display, Catalog.display, hnode, hnode']
      simp [hform, Form.rename]
    | parameter position =>
      rw [Catalog.display, Catalog.display, hnode, hnode']
      simp [hform, Form.rename]
    | definition params =>
      rw [Catalog.display, Catalog.display, hnode, hnode']
      simp [hform, Form.rename, Function.comp_def]
    | application d args =>
      have hform₁ := form?_eq_some.mpr ⟨node, hnode, hform⟩
      have hform₂ := h.form? id
      rw [hform₁, Option.map_some] at hform₂
      have hargs := args_of_application hform₁
      rw [h.source.display_of_application hform₁, h.target.display_of_application hform₂, h.name,
        List.map_map]
      congr 2
      refine List.map_congr_left fun a ha => ?_
      rw [← hargs] at ha
      exact ih a ha (h.source.knows_of_mem_args ha)

theorem displayAll (h : Embeds φ c c') {ids : List TypeId} (hids : ∀ id ∈ ids, c.knows id = true) :
    c'.displayAll (ids.map φ) = c.displayAll ids := by
  rw [Catalog.displayAll, Catalog.displayAll, List.map_map]
  exact List.map_congr_left fun id hid => h.display (hids id hid)

/-- An application of `c` is found again. -/
theorem application? (h : Embeds φ c c') {args : List TypeId}
    (hfound : c.application? d args = some x) :
    c'.application? (φ d) (args.map φ) = some (φ x) := by
  unfold Catalog.application? at hfound ⊢
  have hown : (c'.params (φ d) == args.map φ) = (c.params d == args) := by
    rw [h.params, Bool.eq_iff_iff, beq_iff_eq, beq_iff_eq]
    exact (List.map_injective_iff.mpr h.injective).eq_iff
  rw [List.isEmpty_map, hown]
  split
  · rename_i hsame
    rw [if_pos hsame] at hfound
    rw [Option.some.inj hfound]
  · rename_i hother
    rw [if_neg hother, h.source.applications] at hfound
    rw [h.target.applications, h.form?, hfound]
    rfl

end Embeds

/-! ## 3. What is asked about a tree -/

section

variable {φ : TypeId → TypeId} {c c' : Catalog}

theorem areOwnParams_rename (hφ : Function.Injective φ)
    (hparams : ∀ d, c'.params (φ d) = (c.params d).map φ) (d : TypeId) (args : List TypeTree) :
    c'.areOwnParams (φ d) (args.map (rename φ)) = c.areOwnParams d args := by
  have hinjective : Function.Injective (Option.map φ) := Option.map_injective hφ
  rw [areOwnParams, areOwnParams, hparams, decide_eq_decide]
  have hleft : (args.map (rename φ)).map leaf? = (args.map leaf?).map (Option.map φ) := by
    simp [Function.comp_def]
  have hright : ((c.params d).map φ).map some = ((c.params d).map some).map (Option.map φ) := by
    simp [Function.comp_def]
  rw [hleft, hright]
  exact (List.map_injective_iff.mpr hinjective).eq_iff

theorem isApplied_rename (hφ : Function.Injective φ)
    (hparams : ∀ d, c'.params (φ d) = (c.params d).map φ) (t : TypeTree) :
    c'.isApplied (t.rename φ) = c.isApplied t := by
  cases t with
  | leaf id => rfl
  | apply d args => rw [rename_apply, isApplied, isApplied, areOwnParams_rename hφ hparams]

theorem treeDepth_rename (hφ : Function.Injective φ)
    (hparams : ∀ d, c'.params (φ d) = (c.params d).map φ) (t : TypeTree) :
    c'.treeDepth (t.rename φ) = c.treeDepth t := by
  induction t with
  | leaf id => rfl
  | apply d args ih =>
    have hargs : c'.treesDepth (args.map (rename φ)) = c.treesDepth args := by
      clear d
      induction args with
      | nil => rfl
      | cons a rest ih' =>
        rw [List.map_cons, treesDepth, treesDepth, ih a List.mem_cons_self,
          ih' fun b hb => ih b (List.mem_cons_of_mem _ hb)]
    rw [rename_apply, treeDepth, treeDepth, areOwnParams_rename hφ hparams, hargs]

end

/-! ## 4. Embeddings of the same types -/

/-- Renamings that agree on known types rename the nodes of a catalogue alike. -/
theorem WellFormed.rename_congr {c : Catalog} (hc : c.WellFormed) {φ ψ : TypeId → TypeId}
    (hagree : ∀ x, c.knows x = true → φ x = ψ x) {id : TypeId} {node : Node}
    (hnode : c.node? id = some node) : node.rename φ = node.rename ψ := by
  have hargs : ∀ a ∈ c.args id, φ a = ψ a := fun a ha => hagree a (hc.knows_of_mem_args ha)
  have hform : node.form.rename φ = node.form.rename ψ := by
    cases hform : node.form with
    | plain => rfl
    | parameter position => rfl
    | definition params =>
      rw [args_of_definition (form?_eq_some.mpr ⟨node, hnode, hform⟩)] at hargs
      rw [Form.rename, Form.rename, List.map_congr_left hargs]
    | application d args =>
      have hform' := form?_eq_some.mpr ⟨node, hnode, hform⟩
      obtain ⟨_, -, happ⟩ := hc.appliedTo hform'
      rw [args_of_application hform'] at hargs
      rw [Form.rename, Form.rename, List.map_congr_left hargs,
        hagree d (knows_of_lt (knows_of_node? hnode) happ.definition_older)]
  have hlinks := hc.links hnode
  have hbase : node.base.map φ = node.base.map ψ :=
    Option.map_congr fun b hb => hagree b (knows_of_kind? (hlinks.base hb).1)
  have hinterfaces : node.interfaces.map φ = node.interfaces.map ψ :=
    List.map_congr_left fun i hi => hagree i (knows_of_kind? (hlinks.interfaces hi))
  rw [Node.rename, Node.rename, hform, hbase, hinterfaces]

/-- A renaming of some numbers, made one of all: the others get numbers from `size`
on. -/
def renamingOn (p : TypeId → Bool) (size : Nat) (φ : TypeId → TypeId) (id : TypeId) : TypeId :=
  if p id then φ id else ⟨size + id.index⟩

theorem renamingOn_of_pos {p : TypeId → Bool} {id : TypeId} (hid : p id = true) (size : Nat)
    (φ : TypeId → TypeId) : renamingOn p size φ id = φ id :=
  if_pos hid

theorem renamingOn_injective {p : TypeId → Bool} {size : Nat} {φ : TypeId → TypeId}
    (hbelow : ∀ id, p id = true → (φ id).index < size)
    (hinjective : ∀ a b, p a = true → p b = true → φ a = φ b → a = b) :
    Function.Injective (renamingOn p size φ) := by
  intro a b hab
  have hindex := congrArg TypeId.index hab
  unfold renamingOn at hab hindex
  by_cases ha : p a = true <;> by_cases hb : p b = true <;>
    simp only [ha, hb, if_true, if_false, Bool.false_eq_true] at hab hindex
  · exact hinjective a b ha hb hab
  · have hlt := hbelow a ha
    omega
  · have hlt := hbelow b hb
    omega
  · cases a
    cases b
    congr 1
    simp only at hindex
    omega

/-- A catalogue is embedded if its nodes are found under other numbers. -/
theorem WellFormed.embeds {c c' : Catalog} (hc : c.WellFormed) (hc' : c'.WellFormed)
    {φ : TypeId → TypeId}
    (hinjective : ∀ a b, c.knows a = true → c.knows b = true → φ a = φ b → a = b)
    (hnode : ∀ {id node}, c.node? id = some node → c'.node? (φ id) = some (node.rename φ))
    (hlookup : ∀ name, c'.lookupName? name = (c.lookupName? name).map φ) :
    Embeds (renamingOn c.knows c'.size φ) c c' where
  source := hc
  target := hc'
  injective := by
    refine renamingOn_injective (fun id hid => ?_) hinjective
    obtain ⟨node, hid'⟩ := node?_of_knows hid
    exact knows_iff.mp (knows_of_node? (hnode hid'))
  node? := by
    intro id
    cases hid : c.node? id with
    | some node =>
      rw [renamingOn_of_pos (knows_of_node? hid), hnode hid, Option.map_some,
        hc.rename_congr (fun x hx => renamingOn_of_pos hx _ _) hid]
    | none =>
      have hunknown : ¬ c.knows id = true := by simp [Catalog.knows, hid]
      rw [renamingOn, if_neg hunknown]
      exact Array.getElem?_eq_none (by simp [Catalog.size])
  lookupName? := by
    intro name
    rw [hlookup]
    refine Option.map_congr fun id hid => ?_
    obtain ⟨node, hnode', -⟩ := hc.declared hid
    rw [renamingOn_of_pos (knows_of_node? hnode')]

/-- A catalogue is embedded in one that has its nodes and more, with the same names. -/
theorem WellFormed.embeds_of_kept {c c' : Catalog} (hc : c.WellFormed) (hc' : c'.WellFormed)
    (hkept : ∀ {id node}, c.node? id = some node → c'.node? id = some node)
    (hdeclared : c'.declared = c.declared) :
    Embeds (renamingOn c.knows c'.size fun x => x) c c' := by
  refine hc.embeds hc' (fun a b _ _ hab => hab) (fun hnode => ?_) fun name => ?_
  · rw [Node.rename_self]
    exact hkept hnode
  · rw [Catalog.lookupName?, Catalog.lookupName?, hdeclared]
    exact Option.map_id'.symm

end Catalog

end Generics

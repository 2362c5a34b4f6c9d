/-
Generics.Proofs.Library.Declarations — what declarations have come to.

A declaration in a schema leaves something in the catalogue: a type under its name
with its parameters (`TypeDeclared`), links with the trees that its expressions stand
for (`TypeLinked`), a method with type parameters of its own (`MethodDeclared`). This
is said about the catalogue alone, without the order in which the declarations were
read. Whatever is declared later only adds to the catalogue and changes the links of
types that it is about (`Extends`), so what one declaration has come to stays.
-/
import Mathlib.Data.List.Nodup
import Generics.Proofs.Library.Expressions

namespace Generics

/-! ## 1. Extensions -/

/-- Two nodes that the rules for links do not tell apart. -/
structure Node.SameShape (m n : Node) : Prop where
  isInterface : m.isInterface = n.isInterface
  isParameter : m.isParameter = n.isParameter
  isDefinition : m.isDefinition = n.isDefinition
  isApplication : m.isApplication = n.isApplication

theorem Node.Alike.sameShape {m n : Node} (h : m.Alike n) : m.SameShape n where
  isInterface := by rw [isInterface, isInterface, h.kind]
  isParameter := by rw [isParameter, isParameter, h.form]
  isDefinition := by rw [isDefinition, isDefinition, h.form]
  isApplication := by rw [isApplication, isApplication, h.form]

namespace Catalog

theorem baseFault?_congr {m m' n n' : Node} (hm : m'.SameShape m) (hn : n'.SameShape n) :
    baseFault? m' n' = baseFault? m n := by
  rw [baseFault?, baseFault?, hm.isInterface, hm.isParameter, hm.isApplication, hn.isInterface,
    hn.isParameter, hn.isDefinition]

theorem interfaceFault?_congr {m m' n n' : Node} (hm : m'.SameShape m) (hn : n'.SameShape n) :
    interfaceFault? m' n' = interfaceFault? m n := by
  rw [interfaceFault?, interfaceFault?, hm.isParameter, hm.isApplication, hn.isInterface,
    hn.isDefinition]

/-- `c'` is `c` with further applications and type parameters, and with other links
of the types in `touched` at most. -/
structure Extends (touched : TypeId → Prop) (c c' : Catalog) : Prop where
  wellFormed : c'.WellFormed
  preserves : c.Preserves c'
  declared : c'.declared = c.declared
  kept : ∀ {id n}, c.node? id = some n → ¬ touched id → c'.node? id = some n
  added : ∀ {id n}, c'.node? id = some n → c.knows id = false →
    n.base = none ∧ n.interfaces = [] ∧ (n.isApplication = true ∨ n.isParameter = true)

theorem Grows.extends {X : TypeTree → Prop} {c c' : Catalog} (h : Grows X c c')
    (touched : TypeId → Prop) : Extends touched c c' where
  wellFormed := h.wellFormed
  preserves := h.preserves
  declared := h.declared
  kept hnode _ := h.kept hnode
  added := by
    intro id n hnode hunknown
    rcases h.added hnode with hold | ⟨happ, hbase, hinterfaces, -⟩
    · rw [knows_of_node? hold] at hunknown
      cases hunknown
    · exact ⟨hbase, hinterfaces, .inl happ⟩

namespace Extends

variable {touched : TypeId → Prop} {c c' c'' : Catalog} {id : TypeId}

theorem refl (hc : c.WellFormed) : Extends touched c c where
  wellFormed := hc
  preserves := .refl c
  declared := rfl
  kept hnode _ := hnode
  added hnode hunknown := by
    rw [knows_of_node? hnode] at hunknown
    cases hunknown

theorem trans (h : Extends touched c c') (h' : Extends touched c' c'')
    (htouched : ∀ id, touched id → c.knows id = true) : Extends touched c c'' where
  wellFormed := h'.wellFormed
  preserves := h.preserves.trans h'.preserves
  declared := h'.declared.trans h.declared
  kept hnode hnot := h'.kept (h.kept hnode hnot) hnot
  added := by
    intro id n hnode hunknown
    cases hknown : c'.knows id with
    | false => exact h'.added hnode hknown
    | true =>
      obtain ⟨old, hold⟩ := node?_of_knows hknown
      have hnot : ¬ touched id := fun htouch => by
        rw [htouched id htouch] at hunknown
        cases hunknown
      cases hnode.symm.trans (h'.kept hold hnot)
      exact h.added hold hunknown

theorem mono {touched' : TypeId → Prop} (h : Extends touched c c')
    (hsub : ∀ id, touched id → touched' id) : Extends touched' c c' where
  wellFormed := h.wellFormed
  preserves := h.preserves
  declared := h.declared
  kept hnode hnot := h.kept hnode fun htouch => hnot (hsub _ htouch)
  added := h.added

/-- Changing the links of one type. -/
theorem setNode {node node' : Node} (hc' : (c.setNode id node').WellFormed)
    (hnode : c.node? id = some node) (halike : node'.Alike node) :
    Extends (· = id) c (c.setNode id node') where
  wellFormed := hc'
  preserves := preserves_setNode hnode halike
  declared := rfl
  kept := by
    intro other n hn hnot
    rw [node?_setNode (knows_of_node? hnode), if_neg hnot, hn]
  added := by
    intro other n hn hunknown
    have hknown : c.knows other = true := by
      rcases node?_setNode_cases (knows_of_node? hnode) hn with ⟨rfl, -⟩ | ⟨-, hold⟩
      · exact knows_of_node? hnode
      · exact knows_of_node? hold
    rw [hknown] at hunknown
    cases hunknown

/-- A type of the larger catalogue was there before, or is new and has no links. -/
theorem node?_cases (h : Extends touched c c') {n : Node} (hnode : c'.node? id = some n) :
    (∃ n₁, c.node? id = some n₁ ∧ n.Alike n₁) ∨
      n.base = none ∧ n.interfaces = [] ∧ (n.isApplication = true ∨ n.isParameter = true) := by
  cases hknown : c.knows id with
  | false => exact .inr (h.added hnode hknown)
  | true =>
    obtain ⟨n₁, hnode₁⟩ := node?_of_knows hknown
    obtain ⟨_, hnode', halike⟩ := h.preserves hnode₁
    cases hnode.symm.trans hnode'
    exact .inl ⟨n₁, hnode₁, halike⟩

/-- No open definition is added. -/
theorem params (h : Extends touched c c') (d : TypeId) : c'.params d = c.params d := by
  cases hknown : c.knows d with
  | true => exact h.preserves.params_of_knows hknown
  | false =>
    have hnone : c.node? d = none := by simpa [knows] using hknown
    cases hnode : c'.node? d with
    | none => simp [Catalog.params, hnone, hnode]
    | some n =>
      obtain ⟨-, -, hshape⟩ := h.added hnode hknown
      cases hform : n.form <;>
        simp_all [Catalog.params, Node.params, Node.isApplication, Node.isParameter]

theorem treeOfText? (h : Extends touched c c') (hc : c.WellFormed) (scope : Scope) :
    c'.treeOfText? scope = c.treeOfText? scope :=
  funext fun text => treeOfText?_congr hc h.preserves h.declared text

theorem lookupName? (h : Extends touched c c') (name : String) :
    c'.lookupName? name = c.lookupName? name := by
  rw [Catalog.lookupName?, Catalog.lookupName?, h.declared]

theorem base? (h : Extends touched c c') (hid : c.knows id = true) (hnot : ¬ touched id) :
    c'.base? id = c.base? id := by
  obtain ⟨n, hnode⟩ := node?_of_knows hid
  rw [Catalog.base?, Catalog.base?, hnode, h.kept hnode hnot]

theorem interfaces (h : Extends touched c c') (hid : c.knows id = true) (hnot : ¬ touched id) :
    c'.interfaces id = c.interfaces id := by
  obtain ⟨n, hnode⟩ := node?_of_knows hid
  rw [Catalog.interfaces, Catalog.interfaces, hnode, h.kept hnode hnot]

end Extends

/-! ## 2. Type parameters -/

/-- Type parameters that were declared together, under these names. -/
def NamedParams (c : Catalog) (names : List String) (ids : List TypeId) : Prop :=
  ids.map c.node? = names.mapIdx fun i name => some (parameterNode i name)

/-- A type parameter stays what it is. -/
theorem WellFormed.node?_parameterNode {c c' : Catalog} (hc' : c'.WellFormed)
    (hp : c.Preserves c') {p : TypeId} {position : Nat} {name : String}
    (h : c.node? p = some (parameterNode position name)) :
    c'.node? p = some (parameterNode position name) := by
  obtain ⟨n, hnode, halike⟩ := hp h
  have hparam : n.isParameter = true := by rw [Node.isParameter, halike.form]; rfl
  obtain ⟨hbase, hinterfaces⟩ := (hc'.links hnode).ofParameter hparam
  rw [hnode, Option.some.injEq]
  cases n
  cases halike.name
  cases halike.kind
  cases halike.form
  cases halike.depth
  cases hbase
  cases hinterfaces
  rfl

namespace NamedParams

variable {c c' : Catalog} {names : List String} {ids : List TypeId}

theorem node?_of_getElem? (h : c.NamedParams names ids) {i : Nat} {p : TypeId}
    (hp : ids[i]? = some p) :
    ∃ name, names[i]? = some name ∧ c.node? p = some (parameterNode i name) := by
  have hat := congrArg (fun nodes => nodes[i]?) h
  simp only [List.getElem?_map, hp, Option.map_some, List.getElem?_mapIdx] at hat
  obtain ⟨name, hname, hnode⟩ := Option.map_eq_some_iff.mp hat.symm
  exact ⟨name, hname, hnode.symm⟩

theorem isParameter (h : c.NamedParams names ids) {p : TypeId} (hp : p ∈ ids) :
    c.isParameter p = true := by
  obtain ⟨i, hi⟩ := List.getElem?_of_mem hp
  obtain ⟨name, -, hnode⟩ := h.node?_of_getElem? hi
  simp [Catalog.isParameter, hnode, parameterNode, Node.isParameter]

theorem length_eq (h : c.NamedParams names ids) : ids.length = names.length := by
  simpa using congrArg List.length h

theorem nodup (h : c.NamedParams names ids) : ids.Nodup := by
  rw [List.nodup_iff_getElem?_ne_getElem?]
  intro i j hij hj heq
  obtain ⟨p, hp⟩ : ∃ p, ids[j]? = some p := ⟨_, List.getElem?_eq_getElem hj⟩
  obtain ⟨name, -, hnode⟩ := h.node?_of_getElem? hp
  obtain ⟨name', -, hnode'⟩ := h.node?_of_getElem? (heq.trans hp)
  have hform := congrArg Node.form (Option.some.inj (hnode.symm.trans hnode'))
  cases hform
  exact Nat.lt_irrefl _ hij

theorem fits (h : c.NamedParams names ids) : (Scope.ofParams names ids).Fits c := by
  intro b hb
  rw [Scope.ofParams, List.mem_reverse] at hb
  exact h.isParameter (List.of_mem_zip hb).2

theorem mono (h : c.NamedParams names ids) (hc' : c'.WellFormed) (hp : c.Preserves c') :
    c'.NamedParams names ids := by
  have hnodes : ids.map c'.node? = ids.map c.node? := by
    refine List.map_congr_left fun p hmem => ?_
    obtain ⟨i, hi⟩ := List.getElem?_of_mem hmem
    obtain ⟨name, -, hnode⟩ := h.node?_of_getElem? hi
    rw [hnode, hc'.node?_parameterNode hp hnode]
  exact hnodes.trans h

/-- Nodes added at the end for names are type parameters of these names. -/
theorem of_append (before : List Node)
    (hnodes : c'.nodes = c.nodes ++ (before ++ names.mapIdx parameterNode).toArray) :
    c'.NamedParams names
      ((List.range names.length).map fun i => ⟨c.size + before.length + i⟩) := by
  refine List.ext_getElem? fun i => ?_
  rw [List.map_map, List.getElem?_map, List.getElem?_mapIdx]
  by_cases hi : i < names.length
  · have hnode := node?_append_new hnodes (before.length + i)
    rw [List.getElem?_append_right (Nat.le_add_right _ _), Nat.add_sub_cancel_left,
      List.getElem?_mapIdx, List.getElem?_eq_getElem hi, Option.map_some] at hnode
    rw [List.getElem?_range hi, List.getElem?_eq_getElem hi, Option.map_some, Option.map_some,
      Function.comp_apply, Nat.add_assoc, hnode]
  · have hnone := List.getElem?_eq_none (Nat.le_of_not_lt hi)
    rw [hnone, List.getElem?_eq_none (by simpa using hi)]
    rfl

end NamedParams

/-! ## 3. Declared types -/

/-- What the declaration of a type has come to, apart from links. -/
structure TypeDeclared (c : Catalog) (decl : TypeDecl) (id : TypeId) : Prop where
  lookup : c.lookupName? decl.name = some id
  kind : c.kind? id = some decl.kind
  form : c.form? id = some (declaredForm id decl.params.length)
  params : c.NamedParams decl.params (c.params id)

/-- The parameters of a declared type follow it. -/
theorem params_of_declaredForm {c : Catalog} {id : TypeId} {count : Nat}
    (h : c.form? id = some (declaredForm id count)) :
    c.params id = (List.range count).map fun i => ⟨id.index + 1 + i⟩ := by
  obtain ⟨n, hnode, hform⟩ := form?_eq_some.mp h
  rw [params, hnode, Option.map_some, Option.getD_some, Node.params, hform]
  by_cases hcount : count = 0 <;> simp [declaredForm, hcount]

theorem lookupName?_empty (name : String) : empty.lookupName? name = none := by
  simp [lookupName?, empty]

/-- A declaration does not change what other names stand for. -/
theorem lookupName?_declare {c : Catalog} {kind : Kind} {name other : String}
    {params : List String} (hne : other ≠ name) :
    (c.declare kind name params).2.lookupName? other = c.lookupName? other := by
  rw [lookupName?, declare_eq, Std.HashMap.getElem?_insertIfNew, if_neg]
  · rfl
  · rintro ⟨hsame, -⟩
    exact hne (eq_of_beq hsame).symm

namespace TypeDeclared

variable {c c' : Catalog} {decl : TypeDecl} {id : TypeId}

theorem knows (h : c.TypeDeclared decl id) : c.knows id = true :=
  knows_of_form? h.form

theorem mono (h : c.TypeDeclared decl id) (hc' : c'.WellFormed) (hp : c.Preserves c')
    (hlookup : c'.lookupName? decl.name = some id) : c'.TypeDeclared decl id where
  lookup := hlookup
  kind := hp.kind? h.kind
  form := hp.form? h.form
  params := by
    rw [hp.params_of_knows h.knows]
    exact h.params.mono hc' hp

theorem name_eq (h : c.TypeDeclared decl id) (hc : c.WellFormed) : c.name id = decl.name := by
  obtain ⟨n, hnode, hname, -⟩ := hc.declared h.lookup
  rw [Catalog.name, hnode]
  exact hname

/-- A new declaration. -/
theorem of_declare (hnew : c.lookupName? decl.name = none) :
    (c.declare decl.kind decl.name decl.params).2.TypeDeclared decl c.nextId := by
  have heq := declare_eq c decl.kind decl.name decl.params
  have hnodes := congrArg Catalog.nodes heq
  have hnode := node?_append_new hnodes 0
  have hform : (c.declare decl.kind decl.name decl.params).2.form? c.nextId =
      some (declaredForm c.nextId decl.params.length) := form?_of_node? hnode
  refine ⟨?_, by rw [kind?]; exact congrArg (Option.map Node.kind) hnode, hform, ?_⟩
  · rw [lookupName?, heq, Std.HashMap.getElem?_insertIfNew, if_pos]
    refine ⟨BEq.rfl, fun hmem => ?_⟩
    rw [Std.HashMap.mem_iff_isSome_getElem?, ← lookupName?, hnew] at hmem
    cases hmem
  · have hnamed := NamedParams.of_append [_] hnodes
    rw [params_of_declaredForm hform]
    exact hnamed

theorem isParameter_eq_false (h : c.TypeDeclared decl id) (hc : c.WellFormed) :
    c.isParameter id = false := by
  obtain ⟨n, hnode, -, hparam, -⟩ := hc.declared h.lookup
  rw [isParameter, hnode]
  exact hparam

/-- The parameters follow their definition. -/
theorem index_of_param (h : c.TypeDeclared decl id) {i : Nat} {p : TypeId}
    (hp : (c.params id)[i]? = some p) : p.index = id.index + 1 + i := by
  rw [params_of_declaredForm h.form, List.getElem?_map] at hp
  obtain ⟨j, hj, rfl⟩ := Option.map_eq_some_iff.mp hp
  obtain ⟨-, rfl⟩ := List.getElem?_eq_some_iff.mp hj
  rw [List.getElem_range]

theorem nodup (h : c.TypeDeclared decl id) (hc : c.WellFormed) : (id :: c.params id).Nodup := by
  refine List.nodup_cons.mpr ⟨fun hmem => ?_, h.params.nodup⟩
  have hparam := h.params.isParameter hmem
  rw [h.isParameter_eq_false hc] at hparam
  cases hparam

/-- Declarations under different names have no type in common. -/
theorem disjoint {decl' : TypeDecl} {id' : TypeId} (h : c.TypeDeclared decl id)
    (h' : c.TypeDeclared decl' id') (hc : c.WellFormed) (hne : decl.name ≠ decl'.name) :
    (id :: c.params id).Disjoint (id' :: c.params id') := by
  have hids : id ≠ id' := by
    rintro rfl
    exact hne ((h.name_eq hc).symm.trans (h'.name_eq hc))
  intro p hp hp'
  rcases List.mem_cons.mp hp with rfl | hp <;> rcases List.mem_cons.mp hp' with heq | hp'
  · exact hids heq
  · have hparam := h'.params.isParameter hp'
    rw [h.isParameter_eq_false hc] at hparam
    cases hparam
  · have hparam := h.params.isParameter hp
    rw [heq, h'.isParameter_eq_false hc] at hparam
    cases hparam
  · -- a parameter knows its position, and with it the number of its definition
    obtain ⟨i, hi⟩ := List.getElem?_of_mem hp
    obtain ⟨j, hj⟩ := List.getElem?_of_mem hp'
    obtain ⟨name, -, hnode⟩ := h.params.node?_of_getElem? hi
    obtain ⟨name', -, hnode'⟩ := h'.params.node?_of_getElem? hj
    have hij : i = j := by
      have hform := congrArg Node.form (Option.some.inj (hnode.symm.trans hnode'))
      cases hform
      rfl
    have hindex := (h.index_of_param hi).symm.trans (h'.index_of_param hj)
    refine hids ?_
    cases id
    cases id'
    simp only [TypeId.mk.injEq] at hindex ⊢
    omega

end TypeDeclared

/-- What declaring types has come to. -/
structure Declares (c c' : Catalog) (decls : List TypeDecl) (ids : List TypeId) : Prop where
  wellFormed : c'.WellFormed
  preserves : c.Preserves c'
  lookup : ∀ {name x}, c.lookupName? name = some x → c'.lookupName? name = some x
  names : (decls.map TypeDecl.name).Nodup
  new : ∀ decl ∈ decls, c.lookupName? decl.name = none
  types : List.Forall₂ c'.TypeDeclared decls ids
  added : ∀ {x n}, c'.node? x = some n → c.node? x = some n ∨
    n.base = none ∧ n.interfaces = [] ∧ n.isApplication = false ∧ (n.isParameter = true ∨ x ∈ ids)

/-- The type of a declaration and its parameters are new, and have no links. -/
theorem node?_declare_cases {c : Catalog} {kind : Kind} {name : String} {params : List String}
    {x : TypeId} {n : Node} (hnode : (c.declare kind name params).2.node? x = some n) :
    c.node? x = some n ∨ n.base = none ∧ n.interfaces = [] ∧ n.isApplication = false ∧
      (n.isParameter = true ∨ x = c.nextId) := by
  have hnodes := congrArg Catalog.nodes (declare_eq c kind name params)
  rcases node?_append_cases hnodes hnode with hold | ⟨-, i, rfl, hi⟩
  · exact .inl hold
  · cases i with
    | zero =>
      cases hi
      exact .inr ⟨rfl, rfl, (declaredForm_kinds ..).2, .inr rfl⟩
    | succ i =>
      rw [List.getElem?_cons_succ, List.getElem?_mapIdx] at hi
      obtain ⟨name, -, rfl⟩ := Option.map_eq_some_iff.mp hi
      exact .inr ⟨rfl, rfl, rfl, .inl rfl⟩

/-- One declaration under a new name, then others. -/
theorem Declares.cons {c c' : Catalog} {decl : TypeDecl} {rest : List TypeDecl}
    {ids : List TypeId} (hnew : c.lookupName? decl.name = none)
    (h : (c.declare decl.kind decl.name decl.params).2.Declares c' rest ids) :
    c.Declares c' (decl :: rest) (c.nextId :: ids) := by
  have hp := preserves_append (congrArg Catalog.nodes
    (declare_eq c decl.kind decl.name decl.params))
  have hdeclared := TypeDeclared.of_declare hnew
  have hlookup : ∀ {name x}, c.lookupName? name = some x →
      (c.declare decl.kind decl.name decl.params).2.lookupName? name = some x := by
    intro name x hname
    rw [lookupName?_declare, hname]
    rintro rfl
    rw [hname] at hnew
    cases hnew
  refine ⟨h.wellFormed, hp.trans h.preserves, fun hname => h.lookup (hlookup hname), ?_, ?_,
    .cons (hdeclared.mono h.wellFormed h.preserves (h.lookup hdeclared.lookup)) h.types, ?_⟩
  · rw [List.map_cons, List.nodup_cons]
    refine ⟨fun hmem => ?_, h.names⟩
    obtain ⟨other, hother, hname⟩ := List.mem_map.mp hmem
    have hnone := h.new other hother
    rw [hname, hdeclared.lookup] at hnone
    cases hnone
  · intro other hother
    rcases List.mem_cons.mp hother with rfl | hother
    · exact hnew
    · refine Option.eq_none_iff_forall_ne_some.mpr fun x hx => ?_
      have hnone := h.new other hother
      rw [hlookup hx] at hnone
      cases hnone
  · intro x n hnode
    rcases h.added hnode with hold | ⟨hbase, hinterfaces, happ, hkind⟩
    · rcases node?_declare_cases hold with hold | ⟨hbase, hinterfaces, happ, hkind⟩
      · exact .inl hold
      · exact .inr ⟨hbase, hinterfaces, happ, hkind.imp_right fun heq => by simp [heq]⟩
    · exact .inr ⟨hbase, hinterfaces, happ, hkind.imp_right (List.mem_cons_of_mem _)⟩

/-! ## 4. Links -/

/-- Nothing speaks against the base of a type. -/
def BaseAllowed (c : Catalog) (id base : TypeId) : Prop :=
  ∃ node baseNode, c.node? id = some node ∧ c.node? base = some baseNode ∧
    baseFault? node baseNode = none

/-- Nothing speaks against an interface of a type. -/
def InterfaceAllowed (c : Catalog) (id implemented : TypeId) : Prop :=
  ∃ node interfaceNode, c.node? id = some node ∧ c.node? implemented = some interfaceNode ∧
    interfaceFault? node interfaceNode = none

/-- The base of a type is the one that is written, if one is. -/
structure BaseLinked (c : Catalog) (scope : Scope) (text? : Option String) (id : TypeId) :
    Prop where
  tree : text?.map (c.treeOfText? scope) = (c.base? id).map fun b => some (c.tree b)
  allowed : ∀ {b}, c.base? id = some b → c.BaseAllowed id b

/-- The interfaces of a type are those that are written, each once. -/
structure InterfacesLinked (c : Catalog) (scope : Scope) (texts : List String) (id : TypeId)
    (ids : List TypeId) : Prop where
  trees : texts.map (c.treeOfText? scope) = ids.map fun i => some (c.tree i)
  interfaces : c.interfaces id = ids.eraseDups
  allowed : ∀ {i}, i ∈ ids → c.InterfaceAllowed id i

/-- What the links in the declaration of a type have come to. -/
structure TypeLinked (c : Catalog) (decl : TypeDecl) (id : TypeId) : Prop where
  base : c.BaseLinked (Scope.ofParams decl.params (c.params id)) decl.base id
  interfaces : ∃ ids, c.InterfacesLinked (Scope.ofParams decl.params (c.params id))
    decl.interfaces id ids

section

variable {c c' : Catalog} {id link : TypeId} {scope : Scope} {touched : TypeId → Prop}

theorem BaseAllowed.mono (h : c.BaseAllowed id link) (hp : c.Preserves c') :
    c'.BaseAllowed id link := by
  obtain ⟨n, bn, hn, hbn, hfault⟩ := h
  obtain ⟨n', hn', halike⟩ := hp hn
  obtain ⟨bn', hbn', halike'⟩ := hp hbn
  exact ⟨n', bn', hn', hbn', by rw [baseFault?_congr halike.sameShape halike'.sameShape, hfault]⟩

theorem InterfaceAllowed.mono (h : c.InterfaceAllowed id link) (hp : c.Preserves c') :
    c'.InterfaceAllowed id link := by
  obtain ⟨n, m, hn, hm, hfault⟩ := h
  obtain ⟨n', hn', halike⟩ := hp hn
  obtain ⟨m', hm', halike'⟩ := hp hm
  exact ⟨n', m', hn', hm', by rw [interfaceFault?_congr halike.sameShape halike'.sameShape, hfault]⟩

theorem InterfaceAllowed.knows (h : c.InterfaceAllowed id link) : c.knows link = true := by
  obtain ⟨_, _, -, hlink, -⟩ := h
  exact knows_of_node? hlink

theorem BaseLinked.mono {text? : Option String} (h : c.BaseLinked scope text? id)
    (hc : c.WellFormed) (he : Extends touched c c') (hbase : c'.base? id = c.base? id) :
    c'.BaseLinked scope text? id where
  tree := by
    rw [he.treeOfText? hc, hbase, h.tree]
    refine Option.map_congr fun b hb => ?_
    obtain ⟨_, _, -, hknown, -⟩ := h.allowed hb
    rw [he.preserves.tree (knows_of_node? hknown)]
  allowed hb := (h.allowed (hbase ▸ hb)).mono he.preserves

theorem InterfacesLinked.mono {texts : List String} {ids : List TypeId}
    (h : c.InterfacesLinked scope texts id ids) (hc : c.WellFormed) (he : Extends touched c c')
    (hinterfaces : c'.interfaces id = c.interfaces id) :
    c'.InterfacesLinked scope texts id ids where
  trees := by
    rw [he.treeOfText? hc, h.trees]
    exact List.map_congr_left fun i hi => by rw [he.preserves.tree (h.allowed hi).knows]
  interfaces := hinterfaces.trans h.interfaces
  allowed hi := (h.allowed hi).mono he.preserves

theorem InterfacesLinked.exists_tree {texts : List String} {ids : List TypeId}
    (h : c.InterfacesLinked scope texts id ids) {text : String} (htext : text ∈ texts) :
    ∃ i ∈ ids, c.treeOfText? scope text = some (c.tree i) := by
  have hmem : c.treeOfText? scope text ∈ texts.map (c.treeOfText? scope) :=
    List.mem_map_of_mem htext
  rw [h.trees] at hmem
  obtain ⟨i, hi, htree⟩ := List.mem_map.mp hmem
  exact ⟨i, hi, htree.symm⟩

theorem TypeLinked.mono {decl : TypeDecl} (h : c.TypeLinked decl id) (hc : c.WellFormed)
    (he : Extends touched c c') (hid : c.knows id = true) (hnot : ¬ touched id) :
    c'.TypeLinked decl id := by
  obtain ⟨ids, hids⟩ := h.interfaces
  constructor
  · rw [he.params]
    exact h.base.mono hc he (he.base? hid hnot)
  · rw [he.params]
    exact ⟨ids, hids.mono hc he (he.interfaces hid hnot)⟩

end

/-! ## 5. Methods -/

/-- What the declaration of a method has come to. -/
structure MethodDeclared (c : Catalog) (decl : MethodDecl) (m : Method) : Prop where
  name : m.name = decl.name
  typeParams : c.NamedParams decl.typeParams m.typeParams
  params : decl.params.map (c.treeOfText? (Scope.ofParams decl.typeParams m.typeParams)) =
    m.params.map fun x => some (c.tree x)
  knows : ∀ {x}, x ∈ m.params → c.knows x = true

theorem MethodDeclared.mono {c c' : Catalog} {decl : MethodDecl} {m : Method}
    {touched : TypeId → Prop} (h : c.MethodDeclared decl m) (hc : c.WellFormed)
    (he : Extends touched c c') : c'.MethodDeclared decl m where
  name := h.name
  typeParams := h.typeParams.mono he.wellFormed he.preserves
  params := by
    rw [he.treeOfText? hc, h.params]
    exact List.map_congr_left fun x hx => by rw [he.preserves.tree (h.knows hx)]
  knows hx := he.preserves.knows (h.knows hx)

theorem MethodDeclared.exists_tree {c : Catalog} {decl : MethodDecl} {m : Method}
    (h : c.MethodDeclared decl m) {text : String} (htext : text ∈ decl.params) :
    ∃ x, c.treeOfText? (Scope.ofParams decl.typeParams m.typeParams) text = some (c.tree x) := by
  have hmem : c.treeOfText? (Scope.ofParams decl.typeParams m.typeParams) text ∈
      decl.params.map (c.treeOfText? (Scope.ofParams decl.typeParams m.typeParams)) :=
    List.mem_map_of_mem htext
  rw [h.params] at hmem
  obtain ⟨x, -, htree⟩ := List.mem_map.mp hmem
  exact ⟨x, htree.symm⟩

theorem nodes_addParameters (c : Catalog) (names : List String) :
    (c.addParameters names).2.nodes = c.nodes ++ (names.mapIdx parameterNode).toArray := by
  have hnodes := congrArg Catalog.nodes (addParametersFrom_eq c 0 names)
  simp only [Nat.zero_add] at hnodes
  exact hnodes

theorem declared_addParameters (c : Catalog) (names : List String) :
    (c.addParameters names).2.declared = c.declared := by
  rw [addParameters, addParametersFrom_eq]

theorem Extends.addParameters {c : Catalog} (hc : c.WellFormed) (touched : TypeId → Prop)
    (names : List String) : Extends touched c (c.addParameters names).2 := by
  have hnodes := nodes_addParameters c names
  refine ⟨hc.addParametersFrom 0 names, preserves_append hnodes, declared_addParameters c names,
    fun hnode _ => node?_append_old hnodes hnode, fun {id n} hnode hunknown => ?_⟩
  rcases node?_append_cases hnodes hnode with hold | ⟨-, i, -, hi⟩
  · rw [knows_of_node? hold] at hunknown
    cases hunknown
  · rw [List.getElem?_mapIdx] at hi
    obtain ⟨name, -, rfl⟩ := Option.map_eq_some_iff.mp hi
    exact ⟨rfl, rfl, .inr rfl⟩

theorem namedParams_addParameters (c : Catalog) (names : List String) :
    (c.addParameters names).2.NamedParams names (c.addParameters names).1 := by
  have hnamed := NamedParams.of_append [] (nodes_addParameters c names)
  rwa [addParameters, fst_addParametersFrom]

/-- New type parameters have new numbers. -/
theorem knows_addParameters {c : Catalog} {names : List String} {p : TypeId}
    (hp : p ∈ (c.addParameters names).1) : c.knows p = false := by
  rw [addParameters, fst_addParametersFrom] at hp
  obtain ⟨i, -, rfl⟩ := List.mem_map.mp hp
  rw [Bool.eq_false_iff, ne_eq, knows_iff]
  simp

/-- What declaring methods has come to, with the names in `taken` declared before. -/
structure DeclaresMethods (c c' : Catalog) (taken : List String) (decls : List MethodDecl)
    (ms : List Method) : Prop where
  extended : Extends (fun _ => False) c c'
  names : (decls.map MethodDecl.name).Nodup
  new : ∀ decl ∈ decls, decl.name ∉ taken
  methods : List.Forall₂ c'.MethodDeclared decls ms
  fresh : ∀ m ∈ ms, ∀ p ∈ m.typeParams, c.knows p = false
  apart : ms.Pairwise fun m m' => m.typeParams.Disjoint m'.typeParams

/-- One method with new type parameters, then others. -/
theorem DeclaresMethods.cons {c c₁ c' : Catalog} {taken : List String} {decl : MethodDecl}
    {m : Method} {rest : List MethodDecl} {ms : List Method} (hfree : decl.name ∉ taken)
    (he : Extends (fun _ => False) c c₁) (hm : c₁.MethodDeclared decl m)
    (hfresh : ∀ p ∈ m.typeParams, c.knows p = false)
    (h : c₁.DeclaresMethods c' (decl.name :: taken) rest ms) :
    c.DeclaresMethods c' taken (decl :: rest) (m :: ms) := by
  refine ⟨he.trans h.extended fun _ => False.elim, ?_, ?_,
    .cons (hm.mono he.wellFormed h.extended) h.methods, ?_, ?_⟩
  · rw [List.map_cons, List.nodup_cons]
    refine ⟨fun hmem => ?_, h.names⟩
    obtain ⟨other, hother, hname⟩ := List.mem_map.mp hmem
    exact h.new other hother (hname ▸ List.mem_cons_self)
  · intro other hother
    rcases List.mem_cons.mp hother with rfl | hother
    · exact hfree
    · exact fun hmem => h.new other hother (List.mem_cons_of_mem _ hmem)
  · intro other hother p hp
    rcases List.mem_cons.mp hother with rfl | hother
    · exact hfresh p hp
    · rw [Bool.eq_false_iff]
      intro hknows
      have hnot := h.fresh other hother p hp
      rw [he.preserves.knows hknows] at hnot
      cases hnot
  · refine List.pairwise_cons.mpr ⟨fun other hother p hp hp' => ?_, h.apart⟩
    have hnot := h.fresh other hother p hp'
    rw [knows_of_isParameter (hm.typeParams.isParameter hp)] at hnot
    cases hnot

end Catalog

end Generics

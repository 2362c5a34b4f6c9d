/-
Generics.Proofs.Hierarchy.Packed — numbers of types and names in 32 bits.

A catalogue numbers its types without limit and keeps their names as texts. Packed
into 32 bits, the number of a type is its low bits, and a name is the symbol that a
table has given to the text. Here it is shown that this makes no difference as long
as there are not too many types and names:

  1. Up to `2 ^ 32` types, all numbers that a catalogue keeps are their low bits
     (`NumbersFit`). With more than that two types have the same low bits
     (`low_injective_iff`).
  2. A `NameIndex` keeps the names of a catalogue as symbols, and each call that
     changes the catalogue changes it. Up to `2 ^ 32` different names it names every
     type and finds every name as the catalogue does (`Mirrors`): one call preserves
     this (`Mirrors.perform`), so it holds after every run of calls and of the
     finished catalogue (`answers_performAll`).
-/
import Generics.Proofs.Catalog.Embedding
import Generics.Proofs.Hierarchy.Stability
import Generics.Proofs.SymbolTable

namespace Generics

/-! ## 1. Numbers of types -/

/-- The low 32 bits of a number. -/
def TypeId.low (id : TypeId) : TypeId :=
  ⟨id.index % UInt32.size⟩

theorem TypeId.low_of_lt {id : TypeId} (h : id.index < UInt32.size) : id.low = id :=
  congrArg TypeId.mk (Nat.mod_eq_of_lt h)

namespace Catalog

/-- The numbers that a catalogue has given out, and those that it keeps in nodes and
indexes, are their low bits. -/
structure NumbersFit (c : Catalog) : Prop where
  known : ∀ id, c.knows id = true → id.low = id
  node : ∀ id node, c.node? id = some node → node.rename TypeId.low = node
  declared : ∀ name id, c.lookupName? name = some id → id.low = id
  applications : ∀ (definition : TypeId) (args : List TypeId) (id : TypeId),
    c.applications[(definition, args)]? = some id →
      definition.low = definition ∧ args.map TypeId.low = args ∧ id.low = id

section

variable {c : Catalog}

theorem WellFormed.numbersFit (hc : c.WellFormed) (hfit : c.size ≤ UInt32.size) :
    c.NumbersFit := by
  have hknown : ∀ id, c.knows id = true → id.low = id := fun id hid =>
    TypeId.low_of_lt (Nat.lt_of_lt_of_le (knows_iff.mp hid) hfit)
  refine ⟨hknown, ?_, ?_, ?_⟩
  · intro id node hnode
    rw [hc.rename_congr hknown hnode, Node.rename_self]
  · exact fun name id hid => hknown id (hc.knows_of_lookupName? hid)
  · intro definition args id hentry
    have hform := hc.applications.mp hentry
    obtain ⟨node, hnode, happ⟩ := hc.appliedTo hform
    have hid := knows_of_node? hnode
    refine ⟨hknown _ (knows_of_lt hid happ.definition_older), ?_, hknown id hid⟩
    have hargs : ∀ a ∈ args, a.low = a := fun a ha =>
      hknown a (knows_of_lt hid (happ.args_older a ha))
    rw [List.map_congr_left hargs, List.map_id']

/-- At every moment of a run of calls that ends with at most `2 ^ 32` types, and in the
finished catalogue if it has not more, 32 bits are enough for numbers. -/
theorem numbersFit_performAll (ops : List Operation)
    (hfit : (empty.performAll ops).size ≤ UInt32.size) :
    (∀ before, before <+: ops → (empty.performAll before).NumbersFit) ∧
      ∀ h, (empty.performAll ops).finish = .ok h → h.catalog.size ≤ UInt32.size →
        h.catalog.NumbersFit := by
  refine ⟨?_, fun h hfinish hfit' => ?_⟩
  · rintro before ⟨after, rfl⟩
    have hpreserves := preserves_performAll (empty.performAll before) after
    rw [performAll, List.foldl_append] at hfit
    exact (Reachable.empty.performAll before).wellFormed.numbersFit
      (Nat.le_trans hpreserves.size_le hfit)
  · exact ((Reachable.empty.performAll ops).wellFormed.of_finish hfinish).numbersFit hfit'

/-- Low bits tell all types apart exactly if there are no more than `2 ^ 32` types: those of
the next one are those of the first. -/
theorem low_injective_iff :
    (∀ a b, c.knows a = true → c.knows b = true → a.low = b.low → a = b) ↔
      c.size ≤ UInt32.size := by
  constructor
  · intro hinjective
    by_contra hmany
    have hlast : UInt32.size < c.size := Nat.lt_of_not_le hmany
    have hsame := hinjective ⟨0⟩ ⟨UInt32.size⟩ (knows_iff.mpr (Nat.zero_lt_of_lt hlast))
      (knows_iff.mpr hlast) rfl
    exact absurd hsame (by decide)
  · intro hfit a b ha hb hlow
    rw [knows_iff] at ha hb
    rwa [TypeId.low_of_lt (Nat.lt_of_lt_of_le ha hfit),
      TypeId.low_of_lt (Nat.lt_of_lt_of_le hb hfit)] at hlow

end

end Catalog

/-! ## 2. Names of types -/

/-- The names that a call brings, in the order in which they come. -/
def Operation.names : Operation → List String
  | declare _ name params => name :: params
  | addParameter name _ => [name]
  | addParameters names => names
  | instantiate .. | setBase .. | addInterface .. => []

namespace Catalog

/-- Beside the types of `c` there are applications only, and the declared names are those of
`c`. -/
structure AddsApplications (c c' : Catalog) : Prop where
  added : ∀ {id node}, c'.node? id = some node → c.knows id = false → node.isApplication = true
  lookup : ∀ name, c'.lookupName? name = c.lookupName? name

theorem AddsApplications.of_size_eq {c c' : Catalog} (hsize : c'.size = c.size)
    (hdeclared : c'.declared = c.declared) : c.AddsApplications c' where
  added hnode hnew := by
    rw [Bool.eq_false_iff, ne_eq, knows_iff, ← hsize] at hnew
    exact absurd (knows_iff.mp (knows_of_node? hnode)) hnew
  lookup name := by rw [lookupName?, hdeclared, ← lookupName?]

theorem AddsApplications.refl (c : Catalog) : c.AddsApplications c :=
  .of_size_eq rfl rfl

theorem AddsApplications.setNode (c : Catalog) (id : TypeId) (node : Node) :
    c.AddsApplications (c.setNode id node) :=
  .of_size_eq (by simp [size, Catalog.setNode]) rfl

theorem AddsApplications.addApplication (c : Catalog) (definition : TypeId) (node : Node)
    (args : List TypeId) : c.AddsApplications (c.addApplication definition node args).2 where
  added hnode hnew := by
    rcases SymbolTable.getElem?_push_eq_some_iff.mp hnode with hold | ⟨-, rfl⟩
    · exact (AddsApplications.refl c).added hold hnew
    · rfl
  lookup _ := rfl

/-- A call that brings no names adds applications at most. -/
theorem addsApplications_perform (c : Catalog) {op : Operation} (hnames : op.names = []) :
    c.AddsApplications (op.perform c) := by
  cases op with
  | declare kind name params => cases hnames
  | addParameter name position => cases hnames
  | addParameters names =>
    cases hnames
    exact .refl c
  | instantiate definition args =>
    show c.AddsApplications ((Catalog.instantiate definition args).run.run c).2
    have hrun := instantiated_run c definition args
    generalize (Catalog.instantiate definition args).run.run c = result at hrun ⊢
    cases hrun with
    | entered => exact .addApplication ..
    | _ => exact .refl c
  | setBase type base =>
    show c.AddsApplications ((Catalog.setBase type base).run.run c).2
    rcases setBase_cases c type base with ⟨e, hrun⟩ | ⟨node, _, -, -, -, hrun⟩
    · exact hrun ▸ .refl c
    · exact hrun ▸ .setNode ..
  | addInterface type implemented =>
    show c.AddsApplications ((Catalog.addInterface type implemented).run.run c).2
    rcases addInterface_cases c type implemented with
      ⟨result, hrun⟩ | ⟨node, _, -, -, -, -, hrun⟩
    · exact hrun ▸ .refl c
    · exact hrun ▸ .setNode ..

/-- The definition of an added application was there before. -/
theorem AddsApplications.knows_definition {c c' : Catalog} (h : c.AddsApplications c')
    (hc' : c'.WellFormed) {id definition : TypeId} {args : List TypeId}
    (hform : c'.form? id = some (.application definition args)) : c.knows definition = true := by
  obtain ⟨node, -, happ⟩ := hc'.appliedTo hform
  obtain ⟨definitionNode, hnode, hopen⟩ := (Option.any_eq_true _ _).mp happ.isDefinition
  by_contra hunknown
  obtain ⟨_, _, happlied⟩ :=
    isApplication_iff.mp (h.added hnode (Bool.eq_false_iff.mpr hunknown))
  rw [Node.isDefinition, happlied] at hopen
  cases hopen

end Catalog

/-- The names of a catalogue as symbols: a table, the symbol of each type, and the types
that symbols were declared for. -/
structure NameIndex where
  symbols : SymbolTable
  ofTypes : Array Symbol
  declared : Std.HashMap Symbol TypeId

namespace NameIndex

/-- The index without types. -/
def empty : NameIndex where
  symbols := .empty
  ofTypes := #[]
  declared := ∅

/-- The name of a type, read from its symbol. -/
def name (n : NameIndex) (id : TypeId) : String :=
  (n.ofTypes[id.index]?.map n.symbols.text).getD ""

/-- The type first declared under a name, found through its symbol. -/
def lookupName? (n : NameIndex) (name : String) : Option TypeId :=
  (n.symbols.find? name).bind fun s => n.declared[s]?

/-- A name for the next type. -/
def add (n : NameIndex) (name : String) : NameIndex :=
  { n with
    symbols := (n.symbols.insert name).2
    ofTypes := n.ofTypes.push (n.symbols.insert name).1 }

/-- A declared name for the next type, and names for its parameters. -/
def declare (n : NameIndex) (name : String) (params : List String) : NameIndex :=
  params.foldl add
    { n.add name with
      declared := n.declared.insertIfNew (n.symbols.insert name).1 ⟨n.ofTypes.size⟩ }

/-- Types that the catalogue has got since are applications. They have the symbols of
their definitions. -/
def follow (n : NameIndex) (c : Catalog) : NameIndex :=
  { n with
    ofTypes := n.ofTypes ++ ((c.ids.drop n.ofTypes.size).map fun id =>
      n.ofTypes[(c.unbound id).index]?.getD ⟨0⟩).toArray }

/-- The index after a call on the catalogue `c`. -/
def perform (n : NameIndex) (c : Catalog) : Operation → NameIndex
  | .declare _ name params => n.declare name params
  | .addParameter name _ => n.add name
  | .addParameters names => names.foldl add n
  | .instantiate definition args => n.follow (Operation.perform c (.instantiate definition args))
  | .setBase type base => n.follow (Operation.perform c (.setBase type base))
  | .addInterface type implemented =>
    n.follow (Operation.perform c (.addInterface type implemented))

/-- The index after a run of calls on the catalogue `c`. -/
def performAll (n : NameIndex) (c : Catalog) : List Operation → NameIndex
  | [] => n
  | op :: ops => (n.perform c op).performAll (op.perform c) ops

/-- The index has the names of a catalogue, for which the texts `given` have come into its
table, and symbols are enough to tell them apart. -/
structure Mirrors (n : NameIndex) (c : Catalog) (given : List String) : Prop where
  numbers : n.symbols.Numbers given
  fit : n.symbols.size ≤ UInt32.size
  size : n.ofTypes.size = c.size
  symbol : ∀ id node, c.node? id = some node →
    ∃ s, n.ofTypes[id.index]? = some s ∧ n.symbols.find? node.name = some s
  lookup : ∀ name, n.lookupName? name = c.lookupName? name
  /-- No symbol is declared before it is that of a text. -/
  declared : ∀ (s : Symbol) (id : TypeId), n.declared[s]? = some id →
    ∃ name, n.symbols.find? name = some s

theorem card_toFinset_le_append (given more : List String) :
    given.toFinset.card ≤ (given ++ more).toFinset.card := by
  rw [List.toFinset_append]
  exact Finset.card_le_card Finset.subset_union_left

section

variable {n : NameIndex} {c c' : Catalog} {given : List String} {name : String} {s : Symbol}

namespace Mirrors

theorem find?_injective (h : n.Mirrors c given) {other : String}
    (hname : n.symbols.find? name = some s) (hother : n.symbols.find? other = some s) :
    name = other :=
  h.numbers.find?_injective_iff.mpr h.fit name other s hname hother

/-- A text that comes in changes no look-up: if it is new, its symbol is not declared yet. -/
theorem lookupName?_add (h : n.Mirrors c given)
    (hfew : (given ++ [name]).toFinset.card ≤ UInt32.size) (other : String) :
    (n.add name).lookupName? other = n.lookupName? other := by
  have hnumbers := h.numbers.insert name
  have hfit : (n.symbols.insert name).2.size ≤ UInt32.size := by rwa [hnumbers.size_eq]
  have hkept : ∀ {text s}, n.symbols.find? text = some s →
      (n.symbols.insert name).2.find? text = some s := fun htext =>
    SymbolTable.find?_insert_of_find? htext name
  rw [lookupName?, lookupName?]
  cases hold : n.symbols.find? other with
  | some s => rw [add, hkept hold]
  | none =>
    refine Option.eq_none_iff_forall_ne_some.mpr fun id hid => ?_
    obtain ⟨s, hs, hdeclared⟩ := Option.bind_eq_some_iff.mp hid
    obtain ⟨text, htext⟩ := h.declared s id hdeclared
    cases hnumbers.find?_injective_iff.mpr hfit text other s (hkept htext) hs
    cases hold.symm.trans htext

/-- A new type comes with its name. -/
theorem push (h : n.Mirrors c given) (node : Node)
    (hfew : (given ++ [node.name]).toFinset.card ≤ UInt32.size) :
    (n.add node.name).Mirrors { c with nodes := c.nodes.push node } (given ++ [node.name]) := by
  have hnumbers := h.numbers.insert node.name
  refine ⟨hnumbers, by rwa [add, hnumbers.size_eq], ?_, ?_, ?_, ?_⟩
  · simp [add, Catalog.size, h.size]
  · intro id other hother
    rcases SymbolTable.getElem?_push_eq_some_iff.mp hother with hold | ⟨hlast, rfl⟩
    · obtain ⟨s, hs, hname⟩ := h.symbol id other hold
      exact ⟨s, SymbolTable.getElem?_push_eq_some_iff.mpr (.inl hs),
        SymbolTable.find?_insert_of_find? hname node.name⟩
    · exact ⟨_, SymbolTable.getElem?_push_eq_some_iff.mpr (.inr ⟨hlast.trans h.size.symm, rfl⟩),
        SymbolTable.find?_insert_self n.symbols node.name⟩
  · exact fun other => (h.lookupName?_add hfew other).trans (h.lookup other)
  · intro s id hid
    obtain ⟨other, hother⟩ := h.declared s id hid
    exact ⟨other, SymbolTable.find?_insert_of_find? hother node.name⟩

/-- Declaring the symbol of a name declares the name, unless it is declared already. -/
theorem declareName (h : n.Mirrors c given) (hname : n.symbols.find? name = some s) (id : TypeId) :
    { n with declared := n.declared.insertIfNew s id }.Mirrors
      { c with declared := c.declared.insertIfNew name id } given := by
  have hlookup : ∀ {text s}, n.symbols.find? text = some s →
      n.declared[s]? = c.declared[text]? := by
    intro text s htext
    have hsame := h.lookup text
    rwa [lookupName?, htext] at hsame
  have hmem : s ∈ n.declared ↔ name ∈ c.declared := by
    rw [Std.HashMap.mem_iff_isSome_getElem?, hlookup hname, Std.HashMap.mem_iff_isSome_getElem?]
  refine ⟨h.numbers, h.fit, h.size, h.symbol, fun other => ?_, fun s' id' hid => ?_⟩
  · simp only [lookupName?, Catalog.lookupName?, Std.HashMap.getElem?_insertIfNew, beq_iff_eq, hmem]
    cases hother : n.symbols.find? other with
    | none =>
      have hne : name ≠ other := by
        rintro rfl
        cases hname.symm.trans hother
      have hnone := h.lookup other
      rw [lookupName?, hother] at hnone
      rw [if_neg fun hboth => hne hboth.1]
      exact hnone
    | some s' =>
      have hiff : s = s' ↔ name = other := by
        constructor
        · rintro rfl
          exact h.find?_injective hname hother
        · rintro rfl
          exact Option.some.inj (hname.symm.trans hother)
      simp only [Option.bind_some, hiff, hlookup hother]
  · rw [Std.HashMap.getElem?_insertIfNew] at hid
    split at hid
    · rename_i hboth
      exact ⟨name, beq_iff_eq.mp hboth.1 ▸ hname⟩
    · exact h.declared s' id' hid

/-- Names for type parameters that are declared together. -/
theorem addParametersFrom (h : n.Mirrors c given) (position : Nat) (names : List String)
    (hfew : (given ++ names).toFinset.card ≤ UInt32.size) :
    (names.foldl add n).Mirrors (c.addParametersFrom position names).2 (given ++ names) := by
  induction names generalizing n c given position with
  | nil => rwa [List.append_nil]
  | cons name names ih =>
    rw [List.append_cons] at hfew ⊢
    have hparameter := h.push ⟨name, .classType, .parameter position, 0, none, []⟩
      (Nat.le_trans (card_toFinset_le_append _ names) hfew)
    exact ih hparameter (position + 1) hfew

/-- An application that has come in has the symbol of its definition. -/
theorem getElem?_follow (h : n.Mirrors c given) (c' : Catalog) {id : TypeId}
    (hnew : c.knows id = false) (hid : c'.knows id = true) :
    (n.follow c').ofTypes[id.index]? = some (n.ofTypes[(c'.unbound id).index]?.getD ⟨0⟩) := by
  have hlt := Catalog.knows_iff.mp hid
  have hle : n.ofTypes.size ≤ id.index := by
    rw [Bool.eq_false_iff, ne_eq, Catalog.knows_iff, Nat.not_lt] at hnew
    rwa [h.size]
  rw [NameIndex.follow, Array.getElem?_append_right hle, List.getElem?_toArray, List.getElem?_map,
    List.getElem?_drop, Nat.add_sub_cancel' hle, Catalog.ids, List.getElem?_map,
    List.getElem?_range hlt]
  rfl

/-- Beside added applications, an index is right again once it has followed. -/
theorem follow (h : n.Mirrors c given) (hc' : c'.WellFormed) (hp : c.Preserves c')
    (hadds : c.AddsApplications c') : (n.follow c').Mirrors c' given := by
  refine ⟨h.numbers, h.fit, ?_, ?_, fun name => (h.lookup name).trans (hadds.lookup name).symm,
    h.declared⟩
  · have hle := hp.size_le
    simp only [NameIndex.follow, Array.size_append, List.size_toArray, List.length_map,
      List.length_drop, Catalog.ids, List.length_range, h.size]
    omega
  · intro id node hnode
    cases hold : c.node? id with
    | some old =>
      obtain ⟨s, hs, hname⟩ := h.symbol id old hold
      obtain ⟨node', hnode', halike⟩ := hp hold
      cases hnode.symm.trans hnode'
      obtain ⟨hlt, -⟩ := Array.getElem?_eq_some_iff.mp hs
      exact ⟨s, by rw [NameIndex.follow, Array.getElem?_append_left hlt, hs], halike.name ▸ hname⟩
    | none =>
      have hnew : c.knows id = false := by rw [Catalog.knows, hold]; rfl
      obtain ⟨d, args, hnform⟩ := Catalog.isApplication_iff.mp (hadds.added hnode hnew)
      have hform := Catalog.form?_eq_some.mpr ⟨node, hnode, hnform⟩
      have hknown := hadds.knows_definition hc' hform
      obtain ⟨definition, hdefinition⟩ := Catalog.node?_of_knows hknown
      obtain ⟨s, hs, hname⟩ := h.symbol d definition hdefinition
      have hsame : definition.name = node.name := by
        obtain ⟨_, hnode', happ⟩ := hc'.appliedTo hform
        cases hnode.symm.trans hnode'
        rw [← happ.name, hp.name hknown, Catalog.name, hdefinition]
        rfl
      refine ⟨s, ?_, hsame ▸ hname⟩
      rw [h.getElem?_follow c' hnew (Catalog.knows_of_node? hnode), Catalog.unbound,
        Catalog.definition?_of_application hform, Option.getD_some, hs, Option.getD_some]

theorem declare (h : n.Mirrors c given) (kind : Kind) (name : String) (params : List String)
    (hfew : (given ++ name :: params).toFinset.card ≤ UInt32.size) :
    (n.declare name params).Mirrors (c.declare kind name params).2 (given ++ name :: params) := by
  rw [List.append_cons] at hfew ⊢
  have hdeclared := (h.push ⟨name, kind, Catalog.declaredForm c.nextId params.length, 0, none, []⟩
    (Nat.le_trans (card_toFinset_le_append _ params) hfew)).declareName
      (SymbolTable.find?_insert_self n.symbols name) ⟨n.ofTypes.size⟩
  rw [h.size] at hdeclared
  rw [NameIndex.declare, h.size]
  exact hdeclared.addParametersFrom 0 params hfew

/-- A call on the catalogue and on the index. -/
theorem perform (h : n.Mirrors c given) (hc : c.WellFormed) (op : Operation)
    (hfew : (given ++ op.names).toFinset.card ≤ UInt32.size) :
    (n.perform c op).Mirrors (op.perform c) (given ++ op.names) := by
  have hfollow : op.names = [] →
      (n.follow (op.perform c)).Mirrors (op.perform c) (given ++ op.names) := by
    intro hnames
    rw [hnames, List.append_nil]
    exact h.follow (hc.perform op) (Catalog.performed c op).preserves
      (c.addsApplications_perform hnames)
  cases op with
  | declare kind name params => exact h.declare kind name params hfew
  | addParameter name position => exact h.addParametersFrom position [name] hfew
  | addParameters names => exact h.addParametersFrom 0 names hfew
  | instantiate definition args => exact hfollow rfl
  | setBase type base => exact hfollow rfl
  | addInterface type implemented => exact hfollow rfl

theorem performAll (h : n.Mirrors c given) (hc : c.WellFormed) (ops : List Operation)
    (hfew : (given ++ ops.flatMap Operation.names).toFinset.card ≤ UInt32.size) :
    (n.performAll c ops).Mirrors (c.performAll ops) (given ++ ops.flatMap Operation.names) := by
  induction ops generalizing n c given with
  | nil => rwa [List.flatMap_nil, List.append_nil]
  | cons op ops ih =>
    rw [List.flatMap_cons, ← List.append_assoc] at hfew ⊢
    have hstep := h.perform hc op (Nat.le_trans (card_toFinset_le_append _ _) hfew)
    exact ih hstep (hc.perform op) hfew

/-- Finishing adds applications and no names. -/
theorem finish (h : n.Mirrors c given) (hc : c.WellFormed) {hierarchy : Hierarchy}
    (hfinish : c.finish = .ok hierarchy) :
    (n.follow hierarchy.catalog).Mirrors hierarchy.catalog given :=
  h.follow (hc.of_finish hfinish) (hc.preserves_of_finish hfinish)
    ⟨hc.isApplication_of_finish hfinish, hc.lookupName?_of_finish hfinish⟩

theorem name_eq (h : n.Mirrors c given) (id : TypeId) : n.name id = c.name id := by
  rw [NameIndex.name, Catalog.name]
  cases hnode : c.node? id with
  | none =>
    have hnone : n.ofTypes[id.index]? = none :=
      Array.getElem?_eq_none (h.size.le.trans (Array.getElem?_eq_none_iff.mp hnode))
    rw [hnone]
    rfl
  | some node =>
    obtain ⟨s, hs, hname⟩ := h.symbol id node hnode
    rw [hs, Option.map_some, Option.map_some, Option.getD_some, Option.getD_some]
    exact SymbolTable.text_of_text? ((h.numbers.find?_eq_some_iff_text? h.fit).mp hname)

/-- Types have the same symbol exactly if they have the same name. -/
theorem symbol_eq_iff (h : n.Mirrors c given) {a b : TypeId} (ha : c.knows a = true)
    (hb : c.knows b = true) :
    n.ofTypes[a.index]? = n.ofTypes[b.index]? ↔ c.name a = c.name b := by
  obtain ⟨node, hnode⟩ := Catalog.node?_of_knows ha
  obtain ⟨other, hother⟩ := Catalog.node?_of_knows hb
  obtain ⟨s, hs, hname⟩ := h.symbol a node hnode
  obtain ⟨s', hs', hname'⟩ := h.symbol b other hother
  have hnames : c.name a = node.name ∧ c.name b = other.name := by
    rw [Catalog.name, Catalog.name, hnode, hother]
    exact ⟨rfl, rfl⟩
  rw [hs, hs', hnames.1, hnames.2]
  constructor
  · intro hsame
    cases hsame
    exact h.find?_injective hname hname'
  · intro hsame
    rw [← hname, ← hname', hsame]

end Mirrors

theorem mirrors_empty : empty.Mirrors .empty [""] := by
  refine ⟨SymbolTable.numbers_empty, by decide, rfl, nofun, fun name => ?_, fun s id hid => ?_⟩
  · simp [lookupName?, Catalog.lookupName?, empty, Catalog.empty]
  · simp [empty] at hid

end

/-- An index answers about the names of a catalogue as the catalogue does. -/
structure Answers (n : NameIndex) (c : Catalog) : Prop where
  name : ∀ id, n.name id = c.name id
  lookupName? : ∀ name, n.lookupName? name = c.lookupName? name
  symbol_eq_iff : ∀ a b, c.knows a = true → c.knows b = true →
    (n.ofTypes[a.index]? = n.ofTypes[b.index]? ↔ c.name a = c.name b)

/-- Names kept as symbols. After any run of calls that brings at most `2 ^ 32` different names,
the empty one included, the index that was kept along with the catalogue answers about names
as it does, and with the symbols of definitions for what finishing adds it answers about the
finished catalogue as well. -/
theorem answers_performAll (ops : List Operation)
    (hfew : ("" :: ops.flatMap Operation.names).toFinset.card ≤ UInt32.size) :
    (empty.performAll .empty ops).Answers (Catalog.empty.performAll ops) ∧
      ∀ h, (Catalog.empty.performAll ops).finish = .ok h →
        ((empty.performAll .empty ops).follow h.catalog).Answers h.catalog := by
  have hanswers : ∀ {n c given}, Mirrors n c given → n.Answers c := fun h =>
    ⟨h.name_eq, h.lookup, fun _ _ => h.symbol_eq_iff⟩
  have hc := (Catalog.Reachable.empty.performAll ops).wellFormed
  have hmirrors := mirrors_empty.performAll Catalog.Reachable.empty.wellFormed ops hfew
  exact ⟨hanswers hmirrors, fun h hfinish => hanswers (hmirrors.finish hc hfinish)⟩

end NameIndex

end Generics

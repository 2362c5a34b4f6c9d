/-
Generics.Proofs.Catalog.Operations — what the operations do to a catalogue, and
that every one of them keeps it well formed.

Each operation either adds types at the end, or changes the links of one type,
or is refused and changes nothing. `Instantiated` says once what applying a
definition can do; whatever is stated about it later is read off from its
cases.

`Catalog.Reachable` is what a run of operations can build, whether they succeed
or are refused, and `Reachable.wellFormed` is the invariant of such runs.
-/
import Generics.Proofs.Catalog.WellFormed

namespace Generics

namespace Catalog

/-! ## 1. A criterion for well-formedness -/

/-- A catalogue is well formed if it keeps the types of a well-formed one and
what it has beside them fits. -/
theorem WellFormed.of_preserves {c c' : Catalog} (hc : c.WellFormed) (hp : c.Preserves c')
    (forms : ∀ {id node}, c'.node? id = some node → c.knows id = false → c'.FormFits id node)
    (links : ∀ {id node}, c'.node? id = some node → c'.LinksFit node)
    (applications : ∀ {definition args id}, c'.applications[(definition, args)]? = some id ↔
      c'.form? id = some (.application definition args))
    (room : c'.applications.size ≤ Limits.applications)
    (declared : ∀ {name id}, c'.declared[name]? = some id → c.declared[name]? = some id ∨
      ∃ node, c'.node? id = some node ∧ node.name = name ∧ node.isParameter = false ∧
        node.isApplication = false) : c'.WellFormed where
  forms := by
    intro id node hnode
    cases hknown : c.knows id with
    | false => exact forms hnode hknown
    | true =>
      obtain ⟨old, hold⟩ := node?_of_knows hknown
      obtain ⟨node', hnode', halike⟩ := hp hold
      cases hnode.symm.trans hnode'
      exact (hc.forms hold).mono hp hknown halike
  links := links
  applications := applications
  room := room
  declared := by
    intro name id h
    rcases declared h with hold | hnew
    · obtain ⟨node, hnode, hname, hparam, happ⟩ := hc.declared hold
      obtain ⟨node', hnode', halike⟩ := hp hnode
      refine ⟨node', hnode', halike.name.trans hname, ?_, ?_⟩
      · rw [← hparam, Node.isParameter, Node.isParameter, halike.form]
      · rw [← happ, Node.isApplication, Node.isApplication, halike.form]
    · exact hnew

theorem empty_wellFormed : empty.WellFormed where
  forms h := by simp [empty, node?] at h
  links h := by simp [empty, node?] at h
  applications := by simp [empty, form?, node?]
  room := by simp [empty]
  declared h := by simp [empty] at h

/-! ## 2. Types added at the end -/

section

variable {c c' : Catalog} {added : List Node}

/-- The nodes of a catalogue with types added at the end. -/
theorem node?_append (h : c'.nodes = c.nodes ++ added.toArray) (id : TypeId) :
    c'.node? id = if id.index < c.size then c.node? id else added[id.index - c.size]? := by
  simp only [node?, size, h, Array.getElem?_append, List.getElem?_toArray]
  congr

theorem node?_append_old (h : c'.nodes = c.nodes ++ added.toArray) {id : TypeId} {node : Node}
    (hnode : c.node? id = some node) : c'.node? id = some node := by
  rw [node?_append h, if_pos (knows_iff.mp (knows_of_node? hnode)), hnode]

theorem node?_append_new (h : c'.nodes = c.nodes ++ added.toArray) (i : Nat) :
    c'.node? ⟨c.size + i⟩ = added[i]? := by
  rw [node?_append h, if_neg (by simp), Nat.add_sub_cancel_left]

theorem preserves_append (h : c'.nodes = c.nodes ++ added.toArray) : c.Preserves c' :=
  fun _ _ hnode => ⟨_, node?_append_old h hnode, .refl _⟩

/-- A type of the longer catalogue is an old one or one of the added ones. -/
theorem node?_append_cases (h : c'.nodes = c.nodes ++ added.toArray) {id : TypeId} {node : Node}
    (hnode : c'.node? id = some node) :
    c.node? id = some node ∨
      c.knows id = false ∧ ∃ i, id = ⟨c.size + i⟩ ∧ added[i]? = some node := by
  rw [node?_append h] at hnode
  split at hnode
  · exact .inl hnode
  · rename_i hge
    refine .inr ⟨by rw [Bool.eq_false_iff]; exact fun hk => hge (knows_iff.mp hk),
      id.index - c.size, ?_, hnode⟩
    cases id
    simp only [TypeId.mk.injEq] at hge ⊢
    omega

/-- Adding types that are no applications keeps a catalogue well formed if each
of them fits. -/
theorem WellFormed.append (hc : c.WellFormed) (hnodes : c'.nodes = c.nodes ++ added.toArray)
    (happs : c'.applications = c.applications)
    (fits : ∀ {i node}, added[i]? = some node → c'.FormFits ⟨c.size + i⟩ node ∧
      c'.LinksFit node ∧ node.isApplication = false)
    (declared : ∀ {name id}, c'.declared[name]? = some id → c.declared[name]? = some id ∨
      ∃ node, c'.node? id = some node ∧ node.name = name ∧ node.isParameter = false ∧
        node.isApplication = false) : c'.WellFormed := by
  have hp := preserves_append hnodes
  refine hc.of_preserves hp ?_ ?_ ?_ (by rw [happs]; exact hc.room) declared
  · intro id node hnode hnew
    rcases node?_append_cases hnodes hnode with hold | ⟨-, i, rfl, hi⟩
    · rw [knows_of_node? hold] at hnew
      cases hnew
    · exact (fits hi).1
  · intro id node hnode
    rcases node?_append_cases hnodes hnode with hold | ⟨-, i, rfl, hi⟩
    · exact (hc.links hold).mono hp
    · exact (fits hi).2.1
  · intro d args id
    rw [happs, hc.applications]
    refine ⟨hp.form?, fun hform => ?_⟩
    obtain ⟨node, hnode, hnform⟩ := form?_eq_some.mp hform
    rcases node?_append_cases hnodes hnode with hold | ⟨-, i, rfl, hi⟩
    · exact form?_eq_some.mpr ⟨node, hold, hnform⟩
    · have happ := (fits hi).2.2
      rw [Node.isApplication, hnform] at happ
      cases happ

end

/-- The node of a type parameter. -/
def parameterNode (position : Nat) (name : String) : Node :=
  ⟨name, .classType, .parameter position, 0, none, []⟩

theorem formFits_parameterNode (c : Catalog) (id : TypeId) (position : Nat) (name : String) :
    c.FormFits id (parameterNode position name) :=
  ⟨rfl, rfl⟩

/-- A node without links fits everywhere. -/
theorem linksFit_of_nil (c : Catalog) {node : Node} (hbase : node.base = none)
    (hinterfaces : node.interfaces = []) : c.LinksFit node where
  base h := by rw [hbase] at h; cases h
  interfaces h := by rw [hinterfaces] at h; cases h
  ofInterface _ := hbase
  ofParameter _ := ⟨hbase, hinterfaces⟩

/-- Type parameters declared together are added one after the other. -/
theorem addParametersFrom_eq (c : Catalog) (position : Nat) (names : List String) :
    (c.addParametersFrom position names).2 =
      { c with
        nodes := c.nodes ++
          (names.mapIdx fun i name => parameterNode (position + i) name).toArray } := by
  induction names generalizing c position with
  | nil => simp [addParametersFrom]
  | cons name names ih =>
    simp only [addParametersFrom, ih, addParameter, List.mapIdx_cons, Nat.add_zero]
    congr 1
    rw [Array.push_eq_append, Array.append_assoc]
    simp [parameterNode, Nat.add_assoc, Nat.add_comm 1]

theorem fst_addParametersFrom (c : Catalog) (position : Nat) (names : List String) :
    (c.addParametersFrom position names).1 =
      (List.range names.length).map fun i => ⟨c.size + i⟩ := by
  induction names generalizing c position with
  | nil => rfl
  | cons name names ih =>
    rw [addParametersFrom, List.length_cons, List.range_succ_eq_map, List.map_cons, List.map_map]
    simp only [ih, addParameter, size, Array.size_push]
    congr 1
    exact List.map_congr_left fun i _ => congrArg TypeId.mk (by omega)

theorem WellFormed.addParametersFrom {c : Catalog} (hc : c.WellFormed) (position : Nat)
    (names : List String) : (c.addParametersFrom position names).2.WellFormed := by
  rw [addParametersFrom_eq]
  refine hc.append rfl rfl ?_ fun h => .inl h
  intro i node hi
  rw [List.getElem?_mapIdx] at hi
  obtain ⟨name, -, rfl⟩ := Option.map_eq_some_iff.mp hi
  exact ⟨formFits_parameterNode .., linksFit_of_nil _ rfl rfl, rfl⟩

theorem WellFormed.addParameter {c : Catalog} (hc : c.WellFormed) (name : String)
    (position : Nat) : (c.addParameter name position).2.WellFormed :=
  hc.addParametersFrom position [name]

/-- A declared type and its parameters are added together. -/
theorem declare_eq (c : Catalog) (kind : Kind) (name : String) (params : List String) :
    (c.declare kind name params).2 =
      { c with
        nodes := c.nodes ++
          (⟨name, kind, declaredForm c.nextId params.length, 0, none, []⟩ ::
            params.mapIdx parameterNode).toArray
        declared := c.declared.insertIfNew name c.nextId } := by
  simp only [declare, addParameters, addParametersFrom_eq, Nat.zero_add]
  congr 1
  rw [Array.push_eq_append, Array.append_assoc]
  simp

/-- A declared type is neither a type parameter nor an application. -/
theorem declaredForm_kinds (name : String) (kind : Kind) (id : TypeId) (count : Nat) :
    Node.isParameter ⟨name, kind, declaredForm id count, 0, none, []⟩ = false ∧
      Node.isApplication ⟨name, kind, declaredForm id count, 0, none, []⟩ = false := by
  simp only [Node.isParameter, Node.isApplication, declaredForm]
  by_cases hcount : count = 0 <;> simp [hcount]

/-- The type of a declaration fits, together with its parameters after it. -/
theorem formFits_declared {c c' : Catalog} {kind : Kind} {name : String} {params : List String}
    (hnodes : c'.nodes = c.nodes ++
      (⟨name, kind, declaredForm c.nextId params.length, 0, none, []⟩ ::
        params.mapIdx parameterNode).toArray) :
    c'.FormFits c.nextId ⟨name, kind, declaredForm c.nextId params.length, 0, none, []⟩ := by
  unfold FormFits declaredForm
  by_cases hcount : params.length = 0
  · simp [hcount]
  · simp only [if_neg hcount]
    refine ⟨trivial, ?_, ?_, ?_⟩
    · simpa using hcount
    · simp
    · intro i p hp
      rw [List.getElem?_map] at hp
      obtain ⟨j, hj, rfl⟩ := Option.map_eq_some_iff.mp hp
      obtain ⟨hlt, rfl⟩ := List.getElem?_eq_some_iff.mp hj
      rw [List.length_range] at hlt
      have hnew := node?_append_new hnodes (i + 1)
      rw [List.getElem?_cons_succ, List.getElem?_mapIdx, List.getElem?_eq_getElem hlt,
        Option.map_some] at hnew
      rw [List.getElem_range]
      have hid : (⟨c.nextId.index + 1 + i⟩ : TypeId) = ⟨c.size + (i + 1)⟩ :=
        congrArg TypeId.mk (by simp only [nextId, size]; omega)
      rw [hid]
      exact form?_of_node? hnew

theorem WellFormed.declare {c : Catalog} (hc : c.WellFormed) (kind : Kind) (name : String)
    (params : List String) : (c.declare kind name params).2.WellFormed := by
  have heq := declare_eq c kind name params
  have hnodes := congrArg Catalog.nodes heq
  refine hc.append hnodes (by rw [heq]) ?_ ?_
  · intro i node hi
    cases i with
    | zero =>
      cases hi
      exact ⟨formFits_declared hnodes, linksFit_of_nil _ rfl rfl, (declaredForm_kinds ..).2⟩
    | succ i =>
      rw [List.getElem?_cons_succ, List.getElem?_mapIdx] at hi
      obtain ⟨pname, -, rfl⟩ := Option.map_eq_some_iff.mp hi
      exact ⟨formFits_parameterNode .., linksFit_of_nil _ rfl rfl, rfl⟩
  · intro n id h
    rw [congrArg Catalog.declared heq, Std.HashMap.getElem?_insertIfNew] at h
    split at h
    · rename_i hnew
      cases h
      exact .inr ⟨_, node?_append_new hnodes 0, eq_of_beq hnew.1, declaredForm_kinds ..⟩
    · exact .inl h

/-! ## 3. Applications -/

/-- The node of an application. -/
def applicationNode (c : Catalog) (definition : TypeId) (node : Node) (args : List TypeId) : Node :=
  ⟨node.name, node.kind, .application definition args, c.applicationDepth args, none, []⟩

theorem nodes_addApplication (c : Catalog) (definition : TypeId) (node : Node)
    (args : List TypeId) :
    (c.addApplication definition node args).2.nodes =
      c.nodes ++ [c.applicationNode definition node args].toArray := by
  rw [addApplication, Array.push_eq_append]
  rfl

/-- What applying a definition can do: the answer, the catalogue afterwards and
the conditions, in the order in which they are tested. -/
inductive Instantiated (c : Catalog) (definition : TypeId) (args : List TypeId) :
    Except CatalogError TypeId × Catalog → Prop
  | unknown (h : c.knows definition = false) :
      Instantiated c definition args (.error (.unknownType definition), c)
  | notDefinition (hknown : c.knows definition = true) (h : c.isDefinition definition = false) :
      Instantiated c definition args (.error (.notDefinition (c.display definition)), c)
  | arity {params : List TypeId} (hform : c.form? definition = some (.definition params))
      (h : args.length ≠ params.length) :
      Instantiated c definition args
        (.error (.arityMismatch (c.display definition) params.length args.length), c)
  | own (hform : c.form? definition = some (.definition args)) :
      Instantiated c definition args (.ok definition, c)
  | unknownArgument {params : List TypeId} {a : TypeId}
      (hform : c.form? definition = some (.definition params))
      (hlength : args.length = params.length) (hown : args ≠ params)
      (h : args.find? (fun a => !c.knows a) = some a) :
      Instantiated c definition args (.error (.unknownType a), c)
  | found {params : List TypeId} {id : TypeId}
      (hform : c.form? definition = some (.definition params))
      (hlength : args.length = params.length) (hown : args ≠ params)
      (hargs : ∀ a ∈ args, c.knows a = true)
      (h : c.applications[(definition, args)]? = some id) :
      Instantiated c definition args (.ok id, c)
  | tooDeep {params : List TypeId} (hform : c.form? definition = some (.definition params))
      (hlength : args.length = params.length) (hown : args ≠ params)
      (hargs : ∀ a ∈ args, c.knows a = true)
      (hnew : c.applications[(definition, args)]? = none)
      (h : Limits.nesting < c.applicationDepth args) :
      Instantiated c definition args (.error (.nestingTooDeep (c.display definition)), c)
  | tooMany {params : List TypeId} (hform : c.form? definition = some (.definition params))
      (hlength : args.length = params.length) (hown : args ≠ params)
      (hargs : ∀ a ∈ args, c.knows a = true)
      (hnew : c.applications[(definition, args)]? = none)
      (hdepth : c.applicationDepth args ≤ Limits.nesting)
      (h : Limits.applications ≤ c.applications.size) :
      Instantiated c definition args (.error .tooManyApplications, c)
  | entered {params : List TypeId} {node : Node} (hnode : c.node? definition = some node)
      (hform : node.form = .definition params)
      (hlength : args.length = params.length) (hown : args ≠ params)
      (hargs : ∀ a ∈ args, c.knows a = true)
      (hnew : c.applications[(definition, args)]? = none)
      (hdepth : c.applicationDepth args ≤ Limits.nesting)
      (hroom : c.applications.size < Limits.applications) :
      Instantiated c definition args
        (.ok c.nextId, (c.addApplication definition node args).2)

/-- A computation that starts by looking at the catalogue. -/
theorem run_get_bind {α : Type} (f : Catalog → Build α) (c : Catalog) :
    (do f (← get) : Build α).run.run c = (f c).run.run c := rfl

theorem instantiated_run (c : Catalog) (definition : TypeId) (args : List TypeId) :
    Instantiated c definition args ((instantiate definition args).run.run c) := by
  rw [instantiate, run_get_bind]
  split
  · rename_i hnode
    exact .unknown (by rw [knows, hnode]; rfl)
  · rename_i node hnode
    split
    · rename_i params hform
      have hform' := form?_eq_some.mpr ⟨node, hnode, hform⟩
      split
      · rename_i hlength
        exact .arity hform' hlength
      · rename_i hlength
        rw [ne_eq, Decidable.not_not] at hlength
        split
        · rename_i hown
          subst hown
          exact .own hform'
        · rename_i hown
          split
          · rename_i a ha
            exact .unknownArgument hform' hlength hown ha
          · rename_i hfind
            have hargs : ∀ a ∈ args, c.knows a = true := fun a ha => by
              simpa using List.find?_eq_none.mp hfind a ha
            split
            · rename_i id hid
              exact .found hform' hlength hown hargs hid
            · rename_i hnew
              split
              · rename_i hdepth
                exact .tooDeep hform' hlength hown hargs hnew hdepth
              · rename_i hdepth
                have hdepth' := Nat.le_of_not_lt hdepth
                split
                · rename_i hroom
                  exact .tooMany hform' hlength hown hargs hnew hdepth' hroom
                · rename_i hroom
                  exact .entered hnode hform hlength hown hargs hnew hdepth'
                    (Nat.lt_of_not_le hroom)
    · rename_i hform
      refine .notDefinition (knows_of_node? hnode) (Bool.eq_false_iff.mpr fun hdef => ?_)
      obtain ⟨params, hparams⟩ := isDefinition_iff.mp hdef
      rw [form?_of_node? hnode] at hparams
      exact hform params (Option.some.inj hparams)

/-- An application that passed all tests fits. -/
theorem appliedTo_entered {c c' : Catalog} {definition : TypeId} {node : Node}
    {params args : List TypeId} (hp : c.Preserves c') (hnode : c.node? definition = some node)
    (hform : node.form = .definition params) (hlength : args.length = params.length)
    (hown : args ≠ params) (hargs : ∀ a ∈ args, c.knows a = true)
    (hdepth : c.applicationDepth args ≤ Limits.nesting) :
    c'.AppliedTo c.nextId (c.applicationNode definition node args) definition args := by
  have hform' := hp.form? (form?_eq_some.mpr ⟨node, hnode, hform⟩)
  have hparams := params_of_definition hform'
  have hknown := knows_of_node? hnode
  exact
    { isDefinition := isDefinition_iff.mpr ⟨params, hform'⟩
      definition_older := knows_iff.mp hknown
      args_older := fun a ha => knows_iff.mp (hargs a ha)
      arity := by rw [hparams]; exact hlength
      not_own := by rw [hparams]; exact hown
      name := by rw [hp.name hknown, name, hnode]; rfl
      kind := hp.kind? (by rw [kind?, hnode]; rfl)
      depth := (hp.applicationDepth hargs).symm
      nesting := hdepth }

/-- The new application has the next number. -/
theorem node?_addApplication_new (c : Catalog) (definition : TypeId) (node : Node)
    (args : List TypeId) :
    (c.addApplication definition node args).2.node? c.nextId =
      some (c.applicationNode definition node args) :=
  node?_append_new (nodes_addApplication c definition node args) 0

theorem node?_addApplication_cases {c : Catalog} {definition : TypeId} {node : Node}
    {args : List TypeId} {id : TypeId} {n : Node}
    (h : (c.addApplication definition node args).2.node? id = some n) :
    c.node? id = some n ∨ id = c.nextId ∧ n = c.applicationNode definition node args := by
  rcases node?_append_cases (nodes_addApplication c definition node args) h with
    hold | ⟨-, i, rfl, hi⟩
  · exact .inl hold
  · rw [List.getElem?_singleton] at hi
    split at hi
    · rename_i hzero
      subst hzero
      exact .inr ⟨rfl, (Option.some.inj hi).symm⟩
    · cases hi

theorem knows_nextId (c : Catalog) : c.knows c.nextId = false := by
  rw [Bool.eq_false_iff, ne_eq, knows_iff]
  exact Nat.lt_irrefl _

/-- The index has the new application, and the old ones as before. -/
theorem WellFormed.applications_addApplication {c : Catalog} (hc : c.WellFormed)
    {definition : TypeId} {node : Node} {args : List TypeId}
    (hnew : c.applications[(definition, args)]? = none) {d : TypeId} {as : List TypeId}
    {id : TypeId} :
    (c.addApplication definition node args).2.applications[(d, as)]? = some id ↔
      (c.addApplication definition node args).2.form? id = some (.application d as) := by
  have hp := preserves_append (nodes_addApplication c definition node args)
  show ((c.applications.insert (definition, args) c.nextId)[(d, as)]? = some id) ↔ _
  rw [Std.HashMap.getElem?_insert]
  by_cases hid : id = c.nextId
  · -- the new number: it is in the index for its own key only
    subst hid
    rw [form?_of_node? (node?_addApplication_new c definition node args)]
    split
    · rename_i hkey
      obtain ⟨rfl, rfl⟩ := Prod.mk.inj (eq_of_beq hkey)
      exact ⟨fun _ => rfl, fun _ => rfl⟩
    · rename_i hkey
      constructor
      · intro h
        have hknown := knows_of_form? (hc.applications.mp h)
        rw [knows_nextId] at hknown
        cases hknown
      · intro h
        obtain ⟨rfl, rfl⟩ := Form.application.inj (Option.some.inj h)
        exact absurd BEq.rfl hkey
  · have hold : (c.addApplication definition node args).2.form? id = some (.application d as) ↔
        c.applications[(d, as)]? = some id := by
      rw [hc.applications]
      refine ⟨fun h => ?_, hp.form?⟩
      obtain ⟨n, hn, hnform⟩ := form?_eq_some.mp h
      rcases node?_addApplication_cases hn with hn' | ⟨heq, -⟩
      · exact form?_eq_some.mpr ⟨n, hn', hnform⟩
      · exact absurd heq hid
    rw [hold]
    split
    · rename_i hkey
      obtain ⟨rfl, rfl⟩ := Prod.mk.inj (eq_of_beq hkey)
      rw [hnew]
      exact ⟨fun h => absurd (Option.some.inj h).symm hid, fun h => by cases h⟩
    · exact Iff.rfl

theorem size_applications_addApplication {c : Catalog} {definition : TypeId} {node : Node}
    {args : List TypeId} (hnew : c.applications[(definition, args)]? = none) :
    (c.addApplication definition node args).2.applications.size = c.applications.size + 1 := by
  have habsent : (definition, args) ∉ c.applications := by
    intro hmem
    rw [Std.HashMap.mem_iff_isSome_getElem?, hnew] at hmem
    cases hmem
  show (c.applications.insert (definition, args) c.nextId).size = _
  rw [Std.HashMap.size_insert, if_neg habsent]

theorem WellFormed.addApplication {c : Catalog} (hc : c.WellFormed) {definition : TypeId}
    {node : Node} {params args : List TypeId} (hnode : c.node? definition = some node)
    (hform : node.form = .definition params) (hlength : args.length = params.length)
    (hown : args ≠ params) (hargs : ∀ a ∈ args, c.knows a = true)
    (hnew : c.applications[(definition, args)]? = none)
    (hdepth : c.applicationDepth args ≤ Limits.nesting)
    (hroom : c.applications.size < Limits.applications) :
    (c.addApplication definition node args).2.WellFormed := by
  have hp := preserves_append (nodes_addApplication c definition node args)
  refine hc.of_preserves hp ?_ ?_ (hc.applications_addApplication hnew) ?_ fun h => .inl h
  · intro id n hn hunknown
    rcases node?_addApplication_cases hn with hold | ⟨rfl, rfl⟩
    · rw [knows_of_node? hold] at hunknown
      cases hunknown
    · exact appliedTo_entered hp hnode hform hlength hown hargs hdepth
  · intro id n hn
    rcases node?_addApplication_cases hn with hold | ⟨rfl, rfl⟩
    · exact (hc.links hold).mono hp
    · exact linksFit_of_nil _ rfl rfl
  · rw [size_applications_addApplication hnew]
    exact hroom

/-- Applying a definition keeps a catalogue well formed, also when it is refused. -/
theorem WellFormed.instantiate {c : Catalog} (hc : c.WellFormed) (definition : TypeId)
    (args : List TypeId) : ((instantiate definition args).run.run c).2.WellFormed := by
  have hrun := instantiated_run c definition args
  generalize (Catalog.instantiate definition args).run.run c = result at hrun ⊢
  cases hrun with
  | entered hnode hform hlength hown hargs hnew hdepth hroom =>
    exact hc.addApplication hnode hform hlength hown hargs hnew hdepth hroom
  | _ => exact hc

section

variable {c : Catalog} {id d : TypeId} {node : Node} {params args : List TypeId}

/-- A new application within the limits. -/
theorem instantiate_new (definition : TypeId) (args : List TypeId)
    (hnode : c.node? definition = some node) (hform : node.form = .definition params)
    (hlength : args.length = params.length) (hown : args ≠ params)
    (hargs : ∀ a ∈ args, c.knows a = true) (hnew : c.applications[(definition, args)]? = none)
    (hdepth : c.applicationDepth args ≤ Limits.nesting)
    (hroom : c.applications.size < Limits.applications) :
    (instantiate definition args).run.run c =
      (.ok c.nextId, (c.addApplication definition node args).2) := by
  have hknown : (args.find? fun a => !c.knows a) = none :=
    List.find?_eq_none.mpr fun a ha => by rw [hargs a ha]; decide
  rw [instantiate, run_get_bind]
  simp only [hnode, hform, hknown, hnew]
  rw [if_neg (not_not_intro hlength), if_neg hown, if_neg (Nat.not_lt.mpr hdepth),
    if_neg (Nat.not_le.mpr hroom)]
  rfl

/-- An application that is there already. -/
theorem run_instantiate_of_indexed (hnode : c.node? d = some node)
    (hform : node.form = .definition params) (hlength : args.length = params.length)
    (hown : args ≠ params)
    (hargs : ∀ a ∈ args, c.knows a = true) (hfound : c.applications[(d, args)]? = some id) :
    (instantiate d args).run.run c = (.ok id, c) := by
  have hknown : (args.find? fun a => !c.knows a) = none :=
    List.find?_eq_none.mpr fun a ha => by simp [hargs a ha]
  rw [instantiate, run_get_bind]
  simp only [hnode, hform, hknown, hfound]
  rw [if_neg (not_not_intro hlength), if_neg hown]
  rfl

end

/-! ## 4. Links -/

section

variable {c : Catalog} {id : TypeId} {node node' : Node}

theorem node?_setNode (h : c.knows id = true) (node : Node) (other : TypeId) :
    (c.setNode id node).node? other = if other = id then some node else c.node? other := by
  rw [knows_iff] at h
  simp only [node?, setNode, Array.getElem?_setIfInBounds]
  by_cases heq : other = id
  · subst heq
    rw [if_pos rfl, if_pos rfl]
    exact if_pos h
  · rw [if_neg heq, if_neg fun hindex => heq (by cases other; cases id; simp_all)]

theorem setNode_self (h : c.node? id = some node) : c.setNode id node = c := by
  have hnodes : c.nodes.setIfInBounds id.index node = c.nodes := by
    refine Array.ext_getElem? fun i => ?_
    rw [Array.getElem?_setIfInBounds]
    split
    · rename_i hindex
      subst hindex
      exact (if_pos (knows_iff.mp (knows_of_node? h))).trans h.symm
    · rfl
  rw [setNode, hnodes]

theorem node?_setNode_cases (h : c.knows id = true) {other : TypeId} {n : Node}
    (hn : (c.setNode id node).node? other = some n) :
    other = id ∧ n = node ∨ other ≠ id ∧ c.node? other = some n := by
  rw [node?_setNode h] at hn
  split at hn
  · exact .inl ⟨‹_›, (Option.some.inj hn).symm⟩
  · exact .inr ⟨‹_›, hn⟩

/-- Changing the links of a type keeps all types. -/
theorem preserves_setNode (h : c.node? id = some node) (halike : node'.Alike node) :
    c.Preserves (c.setNode id node') := by
  intro other n hn
  rw [node?_setNode (knows_of_node? h)]
  split
  · rename_i heq
    subst heq
    cases h.symm.trans hn
    exact ⟨node', rfl, halike⟩
  · exact ⟨n, hn, .refl n⟩

/-- Changing the links of a type keeps a catalogue well formed if they fit. -/
theorem WellFormed.setNode (hc : c.WellFormed) (h : c.node? id = some node)
    (halike : node'.Alike node) (hlinks : c.LinksFit node') :
    (c.setNode id node').WellFormed := by
  have hp := preserves_setNode h halike
  have hknown := knows_of_node? h
  refine hc.of_preserves hp ?_ ?_ ?_ hc.room fun hname => .inl hname
  · intro other n hn hunknown
    rcases node?_setNode_cases hknown hn with ⟨rfl, rfl⟩ | ⟨-, hn'⟩
    · rw [hknown] at hunknown
      cases hunknown
    · rw [knows_of_node? hn'] at hunknown
      cases hunknown
  · intro other n hn
    rcases node?_setNode_cases hknown hn with ⟨rfl, rfl⟩ | ⟨-, hn'⟩
    · exact hlinks.mono hp
    · exact (hc.links hn').mono hp
  · intro d args other
    show (c.applications[(d, args)]? = some other) ↔ _
    rw [hc.applications]
    refine ⟨hp.form?, fun hform => ?_⟩
    obtain ⟨n, hn, hnform⟩ := form?_eq_some.mp hform
    rcases node?_setNode_cases hknown hn with ⟨rfl, rfl⟩ | ⟨-, hn'⟩
    · exact form?_eq_some.mpr ⟨node, h, halike.form.symm.trans hnform⟩
    · exact form?_eq_some.mpr ⟨n, hn', hnform⟩

end

/-- Declaring a base changes the base of one type, or is refused and changes
nothing. -/
theorem setBase_cases (c : Catalog) (type base : TypeId) :
    (∃ e, (setBase type base).run.run c = (.error e, c)) ∨
      ∃ node baseNode, c.node? type = some node ∧ c.node? base = some baseNode ∧
        baseFault? node baseNode = none ∧
        (setBase type base).run.run c =
          (.ok (), c.setNode type { node with base := some base }) := by
  rw [setBase, run_get_bind]
  split
  · exact .inl ⟨_, rfl⟩
  · exact .inl ⟨_, rfl⟩
  · rename_i node baseNode hnode hbase
    split
    · exact .inl ⟨_, rfl⟩
    · rename_i hfault
      exact .inr ⟨node, baseNode, hnode, hbase, hfault, rfl⟩

theorem addInterface_cases (c : Catalog) (type implemented : TypeId) :
    (∃ result, (addInterface type implemented).run.run c = (result, c)) ∨
      ∃ node interfaceNode, c.node? type = some node ∧
        c.node? implemented = some interfaceNode ∧
        interfaceFault? node interfaceNode = none ∧ implemented ∉ node.interfaces ∧
        (addInterface type implemented).run.run c =
          (.ok (),
            c.setNode type { node with interfaces := node.interfaces ++ [implemented] }) := by
  rw [addInterface, run_get_bind]
  split
  · exact .inl ⟨_, rfl⟩
  · exact .inl ⟨_, rfl⟩
  · rename_i node interfaceNode hnode himplemented
    split
    · exact .inl ⟨_, rfl⟩
    · rename_i hfault
      split
      · exact .inl ⟨_, rfl⟩
      · rename_i hnew
        exact .inr ⟨node, interfaceNode, hnode, himplemented, hfault, hnew, rfl⟩

/-- A base is declared if both types are known and nothing speaks against it. -/
theorem setBase_eq_ok_iff {c c' : Catalog} {type base : TypeId} :
    (setBase type base).run.run c = (.ok (), c') ↔
      ∃ node baseNode, c.node? type = some node ∧ c.node? base = some baseNode ∧
        baseFault? node baseNode = none ∧ c' = c.setNode type { node with base := some base } := by
  constructor
  · intro h
    rcases setBase_cases c type base with ⟨e, hrun⟩ | ⟨node, baseNode, hnode, hbase, hfault, hrun⟩
    · rw [hrun] at h
      cases h
    · rw [hrun] at h
      exact ⟨node, baseNode, hnode, hbase, hfault, (Prod.mk.inj h).2.symm⟩
  · rintro ⟨node, baseNode, hnode, hbase, hfault, rfl⟩
    rw [setBase, run_get_bind]
    simp only [hnode, hbase, hfault]
    rfl

/-- An interface is declared if both types are known and nothing speaks against it. -/
theorem addInterface_eq_ok_iff {c c' : Catalog} {type implemented : TypeId} :
    (addInterface type implemented).run.run c = (.ok (), c') ↔
      ∃ node interfaceNode, c.node? type = some node ∧
        c.node? implemented = some interfaceNode ∧ interfaceFault? node interfaceNode = none ∧
        c' = if implemented ∈ node.interfaces then c else
          c.setNode type { node with interfaces := node.interfaces ++ [implemented] } := by
  constructor
  · intro h
    rw [addInterface, run_get_bind] at h
    split at h
    · cases h
    · cases h
    · rename_i node interfaceNode hnode himplemented
      split at h
      · cases h
      · rename_i hfault
        refine ⟨node, interfaceNode, hnode, himplemented, hfault, ?_⟩
        split at h
        · rename_i hmem
          rw [if_pos hmem]
          exact (Prod.mk.inj h).2.symm
        · rename_i hnew
          rw [if_neg hnew]
          exact (Prod.mk.inj h).2.symm
  · rintro ⟨node, interfaceNode, hnode, himplemented, hfault, rfl⟩
    rw [addInterface, run_get_bind]
    simp only [hnode, himplemented, hfault]
    split <;> rfl

theorem kind_of_isInterface {node : Node} (h : node.isInterface = true) :
    node.kind = .interfaceType :=
  eq_of_beq h

theorem kind_of_not_isInterface {node : Node} (h : node.isInterface = false) :
    node.kind = .classType := by
  cases hkind : node.kind with
  | classType => rfl
  | interfaceType => rw [Node.isInterface, hkind] at h; cases h

/-- A base that nothing speaks against joins two classes, neither of which is a
type parameter. -/
theorem of_baseFault?_none {node base : Node} (h : baseFault? node base = none) :
    node.kind = .classType ∧ node.isParameter = false ∧ node.isApplication = false ∧
      base.kind = .classType ∧ base.isParameter = false ∧ base.isDefinition = false := by
  unfold baseFault? at h
  iterate 6
    split at h
    · cases h
  simp_all [kind_of_not_isInterface]

theorem of_interfaceFault?_none {node implemented : Node}
    (h : interfaceFault? node implemented = none) :
    node.isParameter = false ∧ node.isApplication = false ∧
      implemented.kind = .interfaceType ∧ implemented.isDefinition = false := by
  unfold interfaceFault? at h
  iterate 4
    split at h
    · cases h
  simp_all [kind_of_isInterface]

theorem WellFormed.setBase {c : Catalog} (hc : c.WellFormed) (type base : TypeId) :
    ((setBase type base).run.run c).2.WellFormed := by
  rcases setBase_cases c type base with ⟨e, hrun⟩ | ⟨node, baseNode, hnode, hbase, hfault, hrun⟩
  · rw [hrun]; exact hc
  · rw [hrun]
    obtain ⟨hkind, hparam, -, hbaseKind, hbaseParam, -⟩ := of_baseFault?_none hfault
    refine hc.setNode hnode ⟨rfl, rfl, rfl, rfl⟩ ?_
    exact
      { base := by
          intro b hb
          cases hb
          refine ⟨by rw [kind?, hbase, Option.map_some, hbaseKind], ?_⟩
          rw [isParameter, hbase]
          exact hbaseParam
        interfaces := (hc.links hnode).interfaces
        ofInterface := fun h => by
          have hclass : node.kind = .interfaceType := h
          rw [hkind] at hclass
          cases hclass
        ofParameter := fun h => by
          have hclass : node.isParameter = true := h
          rw [hparam] at hclass
          cases hclass }

theorem WellFormed.addInterface {c : Catalog} (hc : c.WellFormed) (type implemented : TypeId) :
    ((addInterface type implemented).run.run c).2.WellFormed := by
  rcases addInterface_cases c type implemented with
    ⟨result, hrun⟩ | ⟨node, interfaceNode, hnode, himplemented, hfault, -, hrun⟩
  · rw [hrun]; exact hc
  · rw [hrun]
    obtain ⟨hparam, -, hkind, -⟩ := of_interfaceFault?_none hfault
    refine hc.setNode hnode ⟨rfl, rfl, rfl, rfl⟩ ?_
    have hlinks := hc.links hnode
    exact
      { base := hlinks.base
        interfaces := by
          intro i hi
          rcases List.mem_append.mp hi with hold | hnew
          · exact hlinks.interfaces hold
          · rw [List.mem_singleton.mp hnew, kind?, himplemented, Option.map_some, hkind]
        ofInterface := hlinks.ofInterface
        ofParameter := fun h => by
          have hdeclared : node.isParameter = true := h
          rw [hparam] at hdeclared
          cases hdeclared }

end Catalog

/-! ## 5. Runs of operations -/

/-- A call that builds a catalogue. A declaration without parameters makes a
plain type, one with parameters an open definition. -/
inductive Operation where
  | declare (kind : Kind) (name : String) (params : List String)
  | addParameter (name : String) (position : Nat)
  | addParameters (names : List String)
  | instantiate (definition : TypeId) (args : List TypeId)
  | setBase (type base : TypeId)
  | addInterface (type implemented : TypeId)
  deriving Repr

/-- The catalogue after a call, whether it succeeds or is refused. -/
def Operation.perform (c : Catalog) : Operation → Catalog
  | declare kind name params => (c.declare kind name params).2
  | addParameter name position => (c.addParameter name position).2
  | addParameters names => (c.addParameters names).2
  | instantiate definition args => ((Catalog.instantiate definition args).run.run c).2
  | setBase type base => ((Catalog.setBase type base).run.run c).2
  | addInterface type implemented => ((Catalog.addInterface type implemented).run.run c).2

namespace Catalog

/-- A catalogue that calls can build from the empty one. -/
inductive Reachable : Catalog → Prop
  | empty : Reachable .empty
  | perform {c : Catalog} (hc : Reachable c) (op : Operation) : Reachable (op.perform c)

theorem Reachable.perform_eq {c c' : Catalog} (hc : c.Reachable) (op : Operation)
    (h : op.perform c = c') : c'.Reachable :=
  h ▸ hc.perform op

theorem WellFormed.perform {c : Catalog} (hc : c.WellFormed) (op : Operation) :
    (op.perform c).WellFormed := by
  cases op with
  | declare kind name params => exact hc.declare kind name params
  | addParameter name position => exact hc.addParameter name position
  | addParameters names => exact hc.addParametersFrom 0 names
  | instantiate definition args => exact hc.instantiate definition args
  | setBase type base => exact hc.setBase type base
  | addInterface type implemented => exact hc.addInterface type implemented

/-- Every catalogue that a run of calls builds is well formed. -/
theorem Reachable.wellFormed {c : Catalog} (hc : c.Reachable) : c.WellFormed := by
  induction hc with
  | empty => exact empty_wellFormed
  | perform _ op ih => exact ih.perform op

end Catalog

end Generics

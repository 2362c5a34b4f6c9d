/-
Generics.Proofs.Hierarchy.Stability — numbers mean what they meant.

Whoever has got a number keeps it, while the catalogue grows and after it is
finished. What the number stands for is settled when it is given out: only links
are ever changed. `Catalog.Preserves` is that fact for one operation; here it is
carried through any run of them and through finishing, and it is spelled out what
finishing may still do: it completes the links of applications, lists further
interfaces behind the declared ones, and makes applications.
-/
import Generics.Proofs.Hierarchy.DirectLinks

namespace Generics

/-- What a number stands for, without links. -/
structure Identity where
  name : String
  traits : Nat
  position : Option Nat
  args : List TypeId
  definition : Option TypeId
  deriving DecidableEq, Repr

namespace Catalog

/-- What a number stands for, if it has been given out. -/
def identity? (c : Catalog) (id : TypeId) : Option Identity :=
  (c.node? id).map fun node =>
    ⟨node.name, node.traitBits, node.position?, node.args, c.definition? id⟩

/-- The catalogue after a run of calls. -/
def performAll (c : Catalog) (ops : List Operation) : Catalog :=
  ops.foldl Operation.perform c

section

variable {c c' : Catalog} {h : Hierarchy} {id d : TypeId} {node : Node} {args : List TypeId}

/-! ## 1. Runs of operations -/

/-- What an operation can do to the types: nothing, add some without links at the
end, or change the links of one, where an interface is only ever added behind the
others and only if it is not among them. -/
inductive Performed (c : Catalog) : Catalog → Prop
  | unchanged : Performed c c
  | added {c' : Catalog} {added : List Node} (hnodes : c'.nodes = c.nodes ++ added.toArray)
      (hlinkless : ∀ n ∈ added, n.base = none ∧ n.interfaces = []) : Performed c c'
  | relinked {id : TypeId} {node node' : Node} (hnode : c.node? id = some node)
      (halike : node'.Alike node)
      (hinterfaces : node'.interfaces = node.interfaces ∨
        ∃ i, i ∉ node.interfaces ∧ node'.interfaces = node.interfaces ++ [i]) :
      Performed c (c.setNode id node')

theorem performed_addParametersFrom (c : Catalog) (position : Nat) (names : List String) :
    c.Performed (c.addParametersFrom position names).2 := by
  refine .added (congrArg Catalog.nodes (addParametersFrom_eq c position names)) fun n hn => ?_
  obtain ⟨i, _, rfl⟩ := List.mem_mapIdx.mp hn
  exact ⟨rfl, rfl⟩

theorem performed (c : Catalog) (op : Operation) : c.Performed (op.perform c) := by
  cases op with
  | declare kind name params =>
    refine .added (congrArg Catalog.nodes (declare_eq c kind name params)) fun n hn => ?_
    rcases List.mem_cons.mp hn with rfl | hn
    · exact ⟨rfl, rfl⟩
    · obtain ⟨i, _, rfl⟩ := List.mem_mapIdx.mp hn
      exact ⟨rfl, rfl⟩
  | addParameter name position => exact performed_addParametersFrom c position [name]
  | addParameters names => exact performed_addParametersFrom c 0 names
  | instantiate definition args =>
    show c.Performed ((Catalog.instantiate definition args).run.run c).2
    have hrun := instantiated_run c definition args
    generalize (Catalog.instantiate definition args).run.run c = result at hrun ⊢
    cases hrun with
    | entered =>
      refine .added (nodes_addApplication ..) fun n hn => ?_
      rw [List.mem_singleton.mp hn]
      exact ⟨rfl, rfl⟩
    | _ => exact .unchanged
  | setBase type base =>
    show c.Performed ((Catalog.setBase type base).run.run c).2
    rcases setBase_cases c type base with ⟨e, hrun⟩ | ⟨node, _, hnode, -, -, hrun⟩
    · rw [hrun]
      exact .unchanged
    · rw [hrun]
      exact .relinked hnode ⟨rfl, rfl, rfl, rfl⟩ (.inl rfl)
  | addInterface type implemented =>
    show c.Performed ((Catalog.addInterface type implemented).run.run c).2
    rcases addInterface_cases c type implemented with
      ⟨result, hrun⟩ | ⟨node, _, hnode, -, -, hnew, hrun⟩
    · rw [hrun]
      exact .unchanged
    · rw [hrun]
      exact .relinked hnode ⟨rfl, rfl, rfl, rfl⟩ (.inr ⟨implemented, hnew, rfl⟩)

/-- An operation leaves the types alone that are there. -/
theorem Performed.preserves (h : c.Performed c') : c.Preserves c' := by
  cases h with
  | unchanged => exact .refl c
  | added hnodes => exact preserves_append hnodes
  | relinked hnode halike => exact preserves_setNode hnode halike

theorem preserves_performAll (c : Catalog) (ops : List Operation) :
    c.Preserves (c.performAll ops) := by
  induction ops generalizing c with
  | nil => exact .refl c
  | cons op ops ih => exact (performed c op).preserves.trans (ih (op.perform c))

theorem Reachable.performAll (hc : c.Reachable) (ops : List Operation) :
    (c.performAll ops).Reachable := by
  induction ops generalizing c with
  | nil => exact hc
  | cons op ops ih => exact ih (hc.perform op)

/-- What a number stands for does not depend on links. -/
theorem Preserves.identity? (hp : c.Preserves c') (hid : c.knows id = true) :
    c'.identity? id = c.identity? id := by
  obtain ⟨⟨_, _, _, _, _, _⟩, hnode⟩ := node?_of_knows hid
  obtain ⟨⟨_, _, _, _, _, _⟩, hnode', ⟨rfl, rfl, rfl, rfl⟩⟩ := hp hnode
  rw [Catalog.identity?, Catalog.identity?, hnode, hnode', hp.definition? hid]
  rfl

/-! ## 2. Applications that were asked for -/

/-- An application is found again in every catalogue that has grown out of this
one. -/
theorem Preserves.application? (hp : c.Preserves c') (hc : c.WellFormed) (hc' : c'.WellFormed)
    (hfound : c.application? d args = some id) : c'.application? d args = some id := by
  unfold Catalog.application? at hfound ⊢
  split at hfound
  · rename_i hown
    obtain ⟨hne, hparams⟩ := Bool.and_eq_true_iff.mp hown
    have hknown : c.knows d = true := by
      obtain ⟨p, rest, rfl⟩ := List.exists_cons_of_ne_nil (l := args) (by simpa using hne)
      exact knows_of_form? (form?_of_mem_params (p := p) (by simp [eq_of_beq hparams]))
    rw [if_pos (by rw [hp.params_of_knows hknown]; exact hown)]
    exact hfound
  · rename_i hown
    have hform := hc.applications.mp hfound
    obtain ⟨params, hparams, -⟩ := hc.form?_of_definition? (definition?_of_application hform)
    rw [if_neg (by rw [hp.params_of_knows (knows_of_form? hparams)]; exact hown)]
    exact hc'.applications.mpr (hp.form? hform)

/-- Arguments other than the own parameters are looked up in the index. -/
theorem application?_of_indexed {params : List TypeId}
    (hform : c.form? d = some (.definition params)) (hown : args ≠ params)
    (hindexed : c.applications[(d, args)]? = some id) : c.application? d args = some id := by
  rw [application?, params_of_definition hform, if_neg (by simp [Ne.symm hown]), hindexed]

/-- What applying a definition answers is found under it and the arguments. -/
theorem WellFormed.application?_of_instantiate (hc : c.WellFormed)
    (hok : ((Catalog.instantiate d args).run.run c).1 = .ok id) :
    ((Catalog.instantiate d args).run.run c).2.application? d args = some id := by
  have hrun := instantiated_run c d args
  generalize (Catalog.instantiate d args).run.run c = result at hok hrun ⊢
  cases hrun with
  | own hform =>
    cases hok
    have hne : args ≠ [] := (hc.ownParams hform).nonempty
    simp [application?, params_of_definition hform, hne]
  | found hform _ hown _ hfound =>
    cases hok
    exact application?_of_indexed hform hown hfound
  | @entered params node hnode hform _ hown =>
    cases hok
    have hp : c.Preserves (c.addApplication d node args).2 :=
      preserves_append (nodes_addApplication ..)
    exact application?_of_indexed (hp.form? (form?_eq_some.mpr ⟨node, hnode, hform⟩)) hown
      Std.HashMap.getElem?_insert_self
  | _ => cases hok

/-! ## 3. Declared interfaces -/

/-- No type declares an interface twice. -/
def DeclaresDistinct (c : Catalog) : Prop :=
  ∀ ⦃id node⦄, c.node? id = some node → node.interfaces.Nodup

theorem DeclaresDistinct.performed (hc : c.DeclaresDistinct) (h : c.Performed c') :
    c'.DeclaresDistinct := by
  intro id node hnode
  cases h with
  | unchanged => exact hc hnode
  | added hnodes hlinkless =>
    rcases node?_append_cases hnodes hnode with hold | ⟨-, i, -, hi⟩
    · exact hc hold
    · rw [(hlinkless node (List.mem_of_getElem? hi)).2]
      exact List.nodup_nil
  | relinked hold _ hinterfaces =>
    rcases node?_setNode_cases (knows_of_node? hold) hnode with ⟨-, rfl⟩ | ⟨-, hother⟩
    · rcases hinterfaces with hsame | ⟨i, hnew, happend⟩
      · rw [hsame]
        exact hc hold
      · rw [happend]
        simpa using (hc hold).concat hnew
    · exact hc hother

theorem Reachable.declaresDistinct (hc : c.Reachable) : c.DeclaresDistinct := by
  induction hc with
  | empty =>
    intro id node hnode
    simp [Catalog.empty, node?] at hnode
  | perform _ op ih => exact ih.performed (Catalog.performed _ op)

/-! ## 4. Finishing -/

/-- A type that is not an application keeps its base, and its declared interfaces
come first in its list. -/
theorem Reachable.links_of_finish (hc : c.Reachable) (hfinish : c.finish = .ok h)
    (hnode : c.node? id = some node) (hnot : node.isApplication = false) :
    h.catalog.base? id = node.base ∧ node.interfaces <+: h.catalog.interfaces id := by
  obtain ⟨direct, hcomplete, rfl⟩ := hc.wellFormed.completes_of_finish hfinish
  have hkept := hcomplete.kept hnode hnot
  have hlist := hcomplete.interfaces_isPrefix id
  rw [interfaces_of_node? hkept, eraseDups_of_nodup (hc.declaresDistinct hnode)] at hlist
  rw [base?_withInheritedInterfaces, base?_of_node? hkept,
    interfaces_withInheritedInterfaces (knows_of_node? hkept)]
  exact ⟨rfl, hlist⟩

/-- Whatever finishing adds is an application. -/
theorem WellFormed.isApplication_of_finish (hc : c.WellFormed) (hfinish : c.finish = .ok h)
    (hnode : h.catalog.node? id = some node) (hnew : c.knows id = false) :
    node.isApplication = true := by
  obtain ⟨direct, hcomplete, rfl⟩ := hc.completes_of_finish hfinish
  rw [node?_withInheritedInterfaces] at hnode
  obtain ⟨old, hold, rfl⟩ := Option.map_eq_some_iff.mp hnode
  have happ : old.isApplication = true := hcomplete.added hold hnew
  exact happ

/-- Declared names stand for the same types. -/
theorem WellFormed.lookupName?_of_finish (hc : c.WellFormed) (hfinish : c.finish = .ok h)
    (name : String) : h.catalog.lookupName? name = c.lookupName? name := by
  obtain ⟨direct, hcomplete, rfl⟩ := hc.completes_of_finish hfinish
  show direct.declared[name]? = c.declared[name]?
  rw [hcomplete.declared]

end

/-- A number that a run of calls has given out at some point, with `c` as the
catalogue then, stands for the same name, traits, position, arguments and definition
after any further calls and in the finished catalogue. Finishing leaves bases of
types alone that are not applications, and their interfaces in front; it adds
nothing but applications and no names; and what applying a definition has
answered is what is found for the definition and the arguments in the end. -/
theorem identities_stable {c : Catalog} (hc : c.Reachable) (later : List Operation) :
    (∀ id, c.knows id = true → (c.performAll later).identity? id = c.identity? id) ∧
    (∀ h, (c.performAll later).finish = .ok h →
      (∀ id, c.knows id = true → h.catalog.identity? id = c.identity? id) ∧
      (∀ id node, (c.performAll later).node? id = some node → node.isApplication = false →
        h.catalog.base? id = node.base ∧ node.interfaces <+: h.catalog.interfaces id) ∧
      (∀ id node, h.catalog.node? id = some node → (c.performAll later).knows id = false →
        node.isApplication = true) ∧
      ∀ name, h.catalog.lookupName? name = (c.performAll later).lookupName? name) ∧
    ∀ d args id, ((instantiate d args).run.run c).1 = .ok id →
      ∀ h, (c.performAll (.instantiate d args :: later)).finish = .ok h →
        h.catalog.application? d args = some id := by
  have hgrown := preserves_performAll c later
  have hbuilt := hc.performAll later
  refine ⟨fun id hid => hgrown.identity? hid, fun h hfinish => ⟨fun id hid => ?_, ?_, ?_, ?_⟩, ?_⟩
  · exact (hgrown.trans (hbuilt.wellFormed.preserves_of_finish hfinish)).identity? hid
  · exact fun id node hnode hnot => hbuilt.links_of_finish hfinish hnode hnot
  · exact fun id node hnode hnew => hbuilt.wellFormed.isApplication_of_finish hfinish hnode hnew
  · exact hbuilt.wellFormed.lookupName?_of_finish hfinish
  · intro d args id hok h hfinish
    have hasked := hc.perform (.instantiate d args)
    have hbuilt' := hasked.performAll later
    have hkept := (preserves_performAll ((Operation.instantiate d args).perform c) later).trans
      (hbuilt'.wellFormed.preserves_of_finish hfinish)
    exact hkept.application? hasked.wellFormed (hbuilt'.wellFormed.of_finish hfinish)
      (hc.wellFormed.application?_of_instantiate hok)

/-- Asked for once more, `Pair<string, string>` has its number, and keeps it in the finished
catalogue, where `Key<string>` has been added and `Pair<A, B>` lists `Key<A>` and `Key<B>`
first. -/
theorem identities_stable_pairs :
    (pairs.Reachable ∧ ((instantiate ⟨4⟩ [⟨10⟩, ⟨10⟩]).run.run pairs).1 = .ok ⟨11⟩ ∧
      (pairs.performAll [.instantiate ⟨4⟩ [⟨10⟩, ⟨10⟩]]).finish = .ok ⟨pairsFinished⟩ ∧
      pairs.knows ⟨11⟩ = true ∧ pairs.node? ⟨4⟩ = some pairDefinition ∧
      pairDefinition.isApplication = false ∧ pairs.knows ⟨13⟩ = false) ∧
    pairsFinished.identity? ⟨11⟩ =
      some ⟨"Pair", 0, none, [⟨10⟩, ⟨10⟩], some ⟨4⟩⟩ ∧
    (pairsFinished.base? ⟨4⟩ = some ⟨7⟩ ∧ [⟨8⟩, ⟨9⟩] <+: pairsFinished.interfaces ⟨4⟩) ∧
    (∀ node, pairsFinished.node? ⟨13⟩ = some node → node.isApplication = true) ∧
    pairsFinished.lookupName? "Pair" = pairs.lookupName? "Pair" ∧
    pairsFinished.application? ⟨4⟩ [⟨10⟩, ⟨10⟩] = some ⟨11⟩ := by
  have hasked : (instantiate ⟨4⟩ [⟨10⟩, ⟨10⟩]).run.run pairs = (.ok ⟨11⟩, pairs) :=
    run_instantiate_of_indexed rfl rfl rfl (by decide) (by decide) Std.HashMap.getElem?_insert_self
  have hsame : pairs.performAll [.instantiate ⟨4⟩ [⟨10⟩, ⟨10⟩]] = pairs := congrArg Prod.snd hasked
  have hfinish : (pairs.performAll [.instantiate ⟨4⟩ [⟨10⟩, ⟨10⟩]]).finish =
      .ok ⟨pairsFinished⟩ := by
    rw [hsame, finish_pairs]
  obtain ⟨-, hfinished, -⟩ := identities_stable reachable_pairs [.instantiate ⟨4⟩ [⟨10⟩, ⟨10⟩]]
  obtain ⟨-, -, hfound⟩ := identities_stable reachable_pairs []
  obtain ⟨hidentity, hlinks, hadded, hnames⟩ := hfinished _ hfinish
  rw [hsame] at hlinks hadded hnames
  have hok : ((instantiate ⟨4⟩ [⟨10⟩, ⟨10⟩]).run.run pairs).1 = .ok ⟨11⟩ := by rw [hasked]
  exact ⟨⟨reachable_pairs, hok, hfinish, rfl, rfl, rfl, rfl⟩, hidentity ⟨11⟩ rfl,
    hlinks ⟨4⟩ pairDefinition rfl rfl, fun node hnode => hadded ⟨13⟩ node hnode rfl,
    hnames "Pair", hfound ⟨4⟩ [⟨10⟩, ⟨10⟩] ⟨11⟩ hok _ hfinish⟩

end Catalog

end Generics

/-
Generics.Proofs.Ancestor.Reachability — ancestors are what links lead to.

The ancestors of a type are read off from two places, the chain of its bases and the
list of its interfaces. That list was worked out when the catalogue was finished, so
nothing is followed when an ancestor is looked up. Still no way through the links is
missed: the two places together hold exactly the types that direct links lead to, in
any number and any mixture (`Completes.ancestor_iff`). A look-up is thereby a question
about a set of types, in which it does not count how often a type is reached
(`ancestor?_answers_reached`).
-/
import Mathlib.Data.Set.Subsingleton
import Generics.Proofs.Ancestor
import Generics.Proofs.Hierarchy.DirectLinks

namespace Generics.Catalog

open Relation

/-- The types that links lead to from a type, which is one of them. -/
def reached (c : Catalog) (id : TypeId) : Set TypeId :=
  { x | ReflTransGen c.Inherits id x }

/-- The types that have a shape: the shape itself and, if it is an open definition, its
applications. -/
def ofShape (c : Catalog) (shape : TypeId) : Set TypeId :=
  { x | x = shape ∨
    c.isDefinition shape = true ∧ ∃ args, c.form? x = some (.application shape args) }

/-! ## 1. Ancestors -/

section

variable {c direct : Catalog} {id link x : TypeId}

/-- An interface has no base. -/
theorem WellFormed.base?_of_kind? (hc : c.WellFormed)
    (hkind : c.kind? id = some .interfaceType) : c.base? id = none := by
  obtain ⟨node, hnode, hkind⟩ := Option.map_eq_some_iff.mp hkind
  rw [base?_of_node? hnode]
  exact (hc.links hnode).ofInterface hkind

theorem baseOf_withInheritedInterfaces (c : Catalog) :
    c.withInheritedInterfaces.BaseOf = c.BaseOf := by
  funext a b
  rw [BaseOf, BaseOf, base?_withInheritedInterfaces]

/-- A link in front of an ancestor. If it is an interface, the chain of bases above it ends
at once, and what is listed for it is listed here too. -/
theorem Completes.ancestor_of_inherits (h : Completes c direct) (hlink : direct.Inherits id link)
    (ha : direct.withInheritedInterfaces.Ancestor link x) :
    direct.withInheritedInterfaces.Ancestor id x := by
  obtain ⟨node, hnode, -⟩ := hlink.node?
  have hlisted := interfaces_withInheritedInterfaces (knows_of_node? hnode)
  have hlisted' := interfaces_withInheritedInterfaces (h.wellFormed.knows_of_inherits hlink).1
  unfold Ancestor at ha ⊢
  rw [baseOf_withInheritedInterfaces] at ha ⊢
  rw [hlisted'] at ha
  rw [hlisted]
  rcases ha with habove | hmem
  · rcases hlink with hbase | hi
    · exact .inl (.head hbase habove)
    · have hnone := h.wellFormed.base?_of_kind? (h.wellFormed.kind?_of_mem_interfaces hi)
      rcases ReflTransGen.cases_head habove with rfl | ⟨b, hb, -⟩
      · exact .inr (h.listsInterfaces.mem_iff.mpr (.inl hi))
      · cases hnone.symm.trans hb
  · exact .inr (h.listsInterfaces.mem_iff.mpr (.inr ⟨link, hlink, hmem⟩))

/-- The ancestors of a type are the types that its direct links lead to. -/
theorem Completes.ancestor_iff (h : Completes c direct) :
    direct.withInheritedInterfaces.Ancestor id x ↔ x ∈ direct.reached id := by
  constructor
  · rintro (habove | hmem)
    · rw [baseOf_withInheritedInterfaces] at habove
      exact ReflTransGen.mono (fun _ _ hbase => .inl hbase) _ _ habove
    · exact (h.wellFormed.mem_interfaces_withInheritedInterfaces h.not_transGen
        hmem).transGen.to_reflTransGen
  · intro hpath
    induction hpath using ReflTransGen.head_induction_on with
    | refl => exact .inl .refl
    | head hlink _ ih => exact h.ancestor_of_inherits hlink ih

/-! ## 2. Looking a shape up -/

/-- An open definition has the shape of itself, being itself applied to its own
parameters. -/
theorem hasShape_iff {shape : TypeId} : c.hasShape shape x = true ↔ x ∈ c.ofShape shape := by
  unfold hasShape ofShape
  cases hopen : c.isDefinition shape with
  | false => simp
  | true =>
    obtain ⟨params, hform⟩ := isDefinition_iff.mp hopen
    simp only [if_true, beq_iff_eq, Set.mem_ofPred_eq, true_and]
    constructor
    · intro hdef
      rcases definition?_eq_some hdef with ⟨-, -, rfl⟩ | happlied
      · exact .inl rfl
      · exact .inr happlied
    · rintro (rfl | ⟨args, happlied⟩)
      · exact definition?_of_definition hform
      · exact definition?_of_application happlied

theorem ofShape_withInheritedInterfaces (c : Catalog) (shape : TypeId) :
    c.withInheritedInterfaces.ofShape shape = c.ofShape shape := by
  simp only [ofShape, isDefinition_iff, form?_withInheritedInterfaces]

/-- A definition has as its shape the types that have this definition. -/
theorem WellFormed.mem_ofShape_unbound_iff (hc : c.WellFormed) {y : TypeId} :
    y ∈ c.ofShape (c.unbound x) ↔ c.unbound y = c.unbound x := by
  constructor
  · rintro (rfl | ⟨-, args, hform⟩)
    · cases hdef : c.definition? x with
      | none => simp [unbound, hdef]
      | some d =>
        obtain ⟨params, hform, -⟩ := hc.form?_of_definition? hdef
        simp [unbound, hdef, definition?_of_definition hform]
    · rw [unbound, definition?_of_application hform, Option.getD_some]
  · intro heq
    rw [← heq, unbound]
    cases hdef : c.definition? y with
    | none => exact .inl rfl
    | some d =>
      rw [Option.getD_some]
      rcases definition?_eq_some hdef with ⟨-, -, rfl⟩ | ⟨args, hform⟩
      · exact .inl rfl
      · obtain ⟨node, -, happlied⟩ := hc.appliedTo hform
        exact .inr ⟨happlied.isDefinition, args, hform⟩

/-- The answer to looking `shape` up from `id` is right for the set `M` of types that it may
be answered with. -/
structure AnswersFor (id shape : TypeId) (M : Set TypeId)
    (answer : Except LookupError (Option TypeId)) : Prop where
  none_iff : answer = .ok none ↔ M = ∅
  some_iff : ∀ a, answer = .ok (some a) ↔ M = {a}
  error_iff : (∃ e, answer = .error e) ↔ M.Nontrivial
  lists : ∀ e, answer = .error e → ∃ found, e = .ambiguousAncestor id shape found ∧
    found.Nodup ∧ ∀ x, x ∈ found ↔ x ∈ M

/-- A look-up is right for the set of ancestors that have the shape. -/
theorem answersFor_of_mem_iff {shape : TypeId} {M : Set TypeId}
    (hparam : c.isParameter shape = false)
    (hM : ∀ x, x ∈ c.ancestorsOfShape id shape ↔ x ∈ M) :
    AnswersFor id shape M (c.ancestor? id shape) := by
  have hnodup : (c.ancestorsOfShape id shape).Nodup := nodup_eraseDups _
  rcases ancestor?_cases hparam id with ⟨hlist, hanswer⟩ | ⟨a, hlist, hanswer⟩ |
    ⟨a, b, rest, hlist, hanswer⟩
  · have hempty : M = ∅ := Set.eq_empty_of_forall_notMem fun x hx => by
      simpa [hlist] using (hM x).mpr hx
    rw [hanswer, hempty]
    exact ⟨by simp, fun a => by simp [(Set.singleton_ne_empty a).symm], by simp, by simp⟩
  · have hsingle : M = {a} := Set.ext fun x => by simp [← hM, hlist]
    rw [hanswer, hsingle]
    exact ⟨by simp, fun x => by simp, by simp, by simp⟩
  · rw [hlist] at hM hnodup
    have hseveral : M.Nontrivial := by
      refine ⟨a, (hM a).mp (by simp), b, (hM b).mp (by simp), ?_⟩
      rintro rfl
      simp at hnodup
    rw [hanswer]
    refine ⟨by simp [hseveral.ne_empty], fun x => by simp [hseveral.ne_singleton],
      by simp [hseveral], ?_⟩
    rintro e ⟨⟩
    exact ⟨_, rfl, hnodup, hM⟩

end

/-! ## 3. Finished catalogues -/

namespace Completes

variable {c direct : Catalog} {id shape i : TypeId}

/-- A look-up is right for the set of types of the shape that direct links lead to. -/
theorem answersFor (h : Completes c direct)
    (hfinish : c.finish = .ok ⟨direct.withInheritedInterfaces⟩)
    (hparam : direct.withInheritedInterfaces.isParameter shape = false) :
    AnswersFor id shape (direct.reached id ∩ direct.withInheritedInterfaces.ofShape shape)
      (direct.withInheritedInterfaces.ancestor? id shape) :=
  answersFor_of_mem_iff hparam fun x => by
    rw [h.wellFormed₀.mem_ancestorsOfShape_iff hfinish, hasShape_iff, h.ancestor_iff,
      Set.mem_inter_iff]

/-- An interface that is the only one of its definition is found under it. -/
theorem ancestor?_of_only (h : Completes c direct)
    (hfinish : c.finish = .ok ⟨direct.withInheritedInterfaces⟩)
    (hkind : direct.withInheritedInterfaces.kind? i = some .interfaceType)
    (hreached : i ∈ direct.reached id)
    (honly : ∀ x ∈ direct.reached id, direct.withInheritedInterfaces.unbound x =
      direct.withInheritedInterfaces.unbound i → x = i) :
    direct.withInheritedInterfaces.ancestor? id (direct.withInheritedInterfaces.unbound i) =
      .ok (some i) := by
  have hfinished := h.wellFormed₀.of_finish hfinish
  rw [← hfinished.kind?_unbound] at hkind
  refine ((h.answersFor hfinish (hfinished.not_isParameter hkind)).some_iff i).mpr ?_
  ext x
  rw [Set.mem_inter_iff, hfinished.mem_ofShape_unbound_iff, Set.mem_singleton_iff]
  constructor
  · exact fun ⟨hx, heq⟩ => honly x hx heq
  · rintro rfl
    exact ⟨hreached, rfl⟩

end Completes

/-- Looking up an ancestor is a question about reachability. Let `direct` be the catalogue in
which every type has its direct links, declared or, on an application, substituted, and let a
shape be given that is not a type parameter. The look-up finds nothing, finds one type or
fails according to whether none, just this one or several of the types that links of `direct`
lead to have the shape, and a failure lists all of these, each once. In particular an
interface that is the only one of its definition is found, however many ways lead to it, and
ancestors of ancestors are ancestors. -/
theorem ancestor?_answers_reached {c : Catalog} {h : Hierarchy} (hc : c.Reachable)
    (hfinish : c.finish = .ok h) :
    ∃ direct, materializeFrom 0 c = (.ok (), direct) ∧
      h.catalog = direct.withInheritedInterfaces ∧
      (∀ id shape, h.catalog.isParameter shape = false →
        AnswersFor id shape (direct.reached id ∩ h.catalog.ofShape shape)
          (h.catalog.ancestor? id shape)) ∧
      (∀ id i, h.catalog.kind? i = some .interfaceType → i ∈ direct.reached id →
        (∀ x ∈ direct.reached id, h.catalog.unbound x = h.catalog.unbound i → x = i) →
        h.catalog.ancestor? id (h.catalog.unbound i) = .ok (some i)) ∧
      ∀ id a b, a ∈ h.catalog.selfAndBases id ++ h.catalog.interfaces id →
        b ∈ h.catalog.selfAndBases a ++ h.catalog.interfaces a →
        b ∈ h.catalog.selfAndBases id ++ h.catalog.interfaces id := by
  have hwf := hc.wellFormed
  obtain ⟨hcycle, direct, hrun, rfl⟩ := finish_eq_ok_iff.mp hfinish
  obtain ⟨hexpands, hdone⟩ := hwf.expands_of_ok hrun
  have hcomplete : Completes c direct := ⟨hexpands, hwf, hdone, hcycle⟩
  refine ⟨direct, hrun, rfl, fun id shape hparam => hcomplete.answersFor hfinish hparam,
    fun id i hkind hi honly => hcomplete.ancestor?_of_only hfinish hkind hi honly, ?_⟩
  intro id a b ha hb
  rw [hwf.mem_ancestors_iff hfinish, hcomplete.ancestor_iff] at ha hb ⊢
  exact ReflTransGen.trans ha hb

/-! ## 4. Pairs again

`Pair<string, string>` is linked to `Key<string>` for both of its parameters, and `Pair<A, B>` to
two applications of `Key<K>`. -/

theorem inherits_pairsLinked {id link : TypeId} (hlink : pairsLinked.Inherits id link) :
    id = ⟨4⟩ ∧ link ∈ [⟨7⟩, ⟨8⟩, ⟨9⟩] ∨ id = ⟨11⟩ ∧ link ∈ [⟨12⟩, ⟨13⟩] := by
  obtain ⟨index⟩ := id
  obtain ⟨node, hnode, -⟩ := hlink.node?
  have hbound : index < 14 := knows_iff.mp (knows_of_node? hnode)
  interval_cases index <;> rcases hlink with hbase | hmem <;> try contradiction
  · cases hbase
    exact .inl ⟨rfl, by decide⟩
  · exact .inl ⟨rfl, List.mem_cons_of_mem _ hmem⟩
  · cases hbase
    exact .inr ⟨rfl, by decide⟩
  · have hkey : link ∈ [(⟨13⟩ : TypeId), ⟨13⟩] := hmem
    exact .inr ⟨rfl, by simpa using Or.inr hkey⟩

/-- Two links in a row there are none. -/
theorem reached_pairsLinked {id x : TypeId} (hx : x ∈ pairsLinked.reached id) :
    x = id ∨ pairsLinked.Inherits id x := by
  rcases reflTransGen_iff_eq_or_transGen.mp hx with rfl | hpath
  · exact .inl rfl
  obtain ⟨link, hlink, hrest⟩ := TransGen.head'_iff.mp hpath
  rcases ReflTransGen.cases_head hrest with rfl | ⟨next, hnext, -⟩
  · exact .inr hlink
  · have hlast : ∀ {a b}, pairsLinked.Inherits a b → b ≠ ⟨4⟩ ∧ b ≠ ⟨11⟩ := by
      intro a b hab
      rcases inherits_pairsLinked hab with ⟨-, hb⟩ | ⟨-, hb⟩ <;>
        constructor <;> rintro rfl <;> revert hb <;> decide
    obtain ⟨h4, h11⟩ := hlast hlink
    rcases inherits_pairsLinked hnext with ⟨rfl, -⟩ | ⟨rfl, -⟩ <;> contradiction

/-- `Key<K>` is found among the ancestors of `Pair<string, string>`, which has `Key<string>`
twice, and is ambiguous among those of `Pair<A, B>`. -/
theorem ancestor?_answers_reached_pairs :
    (pairs.Reachable ∧ pairs.finish = .ok ⟨pairsFinished⟩ ∧
      pairsFinished.isParameter ⟨2⟩ = false) ∧
    pairsFinished.ancestor? ⟨11⟩ ⟨2⟩ = .ok (some ⟨13⟩) ∧
    ∃ found, pairsFinished.ancestor? ⟨4⟩ ⟨2⟩ = .error (.ambiguousAncestor ⟨4⟩ ⟨2⟩ found) ∧
      found.Nodup ∧ ∀ x, x ∈ found ↔ x = ⟨8⟩ ∨ x = ⟨9⟩ := by
  obtain ⟨direct, hrun, -, hanswers, -⟩ := ancestor?_answers_reached reachable_pairs finish_pairs
  cases materializeFrom_pairs.symm.trans hrun
  have hparam : pairsFinished.isParameter ⟨2⟩ = false := not_isParameter_of_isDefinition
    (isDefinition_iff.mpr ⟨_, form?_withInheritedInterfaces pairsLinked ⟨2⟩⟩)
  have hshape : ∀ x, x ∈ pairsFinished.ofShape ⟨2⟩ ↔ pairsLinked.hasShape ⟨2⟩ x = true := by
    intro x
    rw [pairsFinished, ofShape_withInheritedInterfaces, hasShape_iff]
  have hone : pairsLinked.reached ⟨11⟩ ∩ pairsFinished.ofShape ⟨2⟩ = {⟨13⟩} := by
    ext x
    rw [Set.mem_inter_iff, hshape, Set.mem_singleton_iff]
    constructor
    · rintro ⟨hx, hkey⟩
      rcases reached_pairsLinked hx with rfl | hlink
      · cases hkey
      · rcases inherits_pairsLinked hlink with ⟨h4, -⟩ | ⟨-, hmem⟩
        · cases h4
        · rcases List.mem_pair.mp hmem with rfl | rfl
          · cases hkey
          · rfl
    · rintro rfl
      exact ⟨.single (.inr (by decide)), rfl⟩
  have htwo : ∀ x, x ∈ pairsLinked.reached ⟨4⟩ ∩ pairsFinished.ofShape ⟨2⟩ ↔
      x = ⟨8⟩ ∨ x = ⟨9⟩ := by
    intro x
    rw [Set.mem_inter_iff, hshape]
    constructor
    · rintro ⟨hx, hkey⟩
      rcases reached_pairsLinked hx with rfl | hlink
      · cases hkey
      · rcases inherits_pairsLinked hlink with ⟨-, hmem⟩ | ⟨h11, -⟩
        · rcases List.mem_cons.mp hmem with rfl | hmem
          · cases hkey
          · exact List.mem_pair.mp hmem
        · cases h11
    · rintro (rfl | rfl) <;> exact ⟨.single (.inr (by decide)), rfl⟩
  refine ⟨⟨reachable_pairs, finish_pairs, hparam⟩,
    ((hanswers ⟨11⟩ ⟨2⟩ hparam).some_iff ⟨13⟩).mpr hone, ?_⟩
  have hboth := hanswers ⟨4⟩ ⟨2⟩ hparam
  obtain ⟨e, herror⟩ := hboth.error_iff.mpr
    ⟨⟨8⟩, (htwo _).mpr (.inl rfl), ⟨9⟩, (htwo _).mpr (.inr rfl), by decide⟩
  obtain ⟨found, rfl, hnodup, hmem⟩ := hboth.lists e herror
  exact ⟨found, herror, hnodup, fun x => (hmem x).trans (htwo x)⟩

end Generics.Catalog

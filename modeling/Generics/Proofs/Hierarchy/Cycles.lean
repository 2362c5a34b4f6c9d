/-
Generics.Proofs.Hierarchy.Cycles — which catalogues are refused for a cycle.

Finishing a catalogue begins with a search for types that inherit from themselves, between
definitions. It refuses exactly the catalogues that have one, and names one
(`finish_refuses_cycles`): the search is complete, and the later steps, which can fail as
well, never blame a cycle.

A link counts by the definition it leads to. What stands in its arguments is mentioned and
not inherited, so a type may implement an interface applied to the type itself. How far this
goes is said by what one link more can do: it closes a cycle exactly if the definition it
leads to inherits already from the type that declares it.
-/
import Generics.Proofs.Hierarchy.Closure

namespace Generics.Catalog

open Relation

/-- The catalogue is refused because a type inherits from itself. -/
def RefusedForCycle (c : Catalog) : Prop :=
  ∃ name, c.finish = .error (.inheritanceCycle name)

/-- `c'` is `c` after `type` has declared one link more: an interface, or a base where it had
none. -/
inductive DeclaresLink (c : Catalog) (type link : TypeId) (c' : Catalog) : Prop
  | interface (h : (addInterface type link).run.run c = (.ok (), c'))
  | base (hnone : c.base? type = none) (h : (setBase type link).run.run c = (.ok (), c'))

section

variable {c c' : Catalog} {type link x y : TypeId}

/-! ## 1. Refusals -/

/-- A cycle is reported exactly if the search finds one, by the name of the type found. -/
theorem WellFormed.finish_eq_cycle_iff (hc : c.WellFormed) {name : String} :
    c.finish = .error (.inheritanceCycle name) ↔
      ∃ id, c.inheritanceCycle? = some id ∧ name = c.display id := by
  cases hfound : c.inheritanceCycle? with
  | some id => simp [finish, hfound, eq_comm]
  | none =>
    constructor
    · intro hfinish
      cases hc.exceedsLimit_of_finish hfound hfinish
    · rintro ⟨id, hid, -⟩
      cases hid

theorem WellFormed.refusedForCycle_iff (hc : c.WellFormed) :
    c.RefusedForCycle ↔ ∃ id, TransGen c.DeclaredUnder id id := by
  constructor
  · rintro ⟨name, hfinish⟩
    obtain ⟨id, hfound, -⟩ := hc.finish_eq_cycle_iff.mp hfinish
    exact ⟨id, cycle_of_inheritanceCycle? hfound⟩
  · rintro ⟨id, hcycle⟩
    cases hfound : c.inheritanceCycle? with
    | none => exact absurd hcycle (hc.inheritanceCycle?_eq_none_iff.mp hfound id)
    | some found => exact ⟨_, hc.finish_eq_cycle_iff.mpr ⟨found, hfound, rfl⟩⟩

/-! ## 2. One link more -/

/-- A path that may use one edge more does without it or goes through it. -/
theorem transGen_of_insert {α : Type} {r r' : α → α → Prop} {a b x y : α}
    (h : ∀ x y, r' x y → r x y ∨ x = a ∧ y = b) (hpath : TransGen r' x y) :
    TransGen r x y ∨ ReflTransGen r x a ∧ ReflTransGen r b y := by
  induction hpath with
  | single hstep =>
    rcases h _ _ hstep with hold | ⟨rfl, rfl⟩
    · exact .inl (.single hold)
    · exact .inr ⟨.refl, .refl⟩
  | tail _ hstep ih =>
    rcases h _ _ hstep with hold | ⟨rfl, rfl⟩
    · rcases ih with hpath | ⟨hbefore, hafter⟩
      · exact .inl (hpath.tail hold)
      · exact .inr ⟨hbefore, hafter.tail hold⟩
    · rcases ih with hpath | ⟨hbefore, -⟩
      · exact .inr ⟨hpath.to_reflTransGen, .refl⟩
      · exact .inr ⟨hbefore, .refl⟩

/-- One edge more closes a cycle exactly if its end leads to its start. -/
theorem exists_cycle_insert_iff {α : Type} {r r' : α → α → Prop} {a b : α}
    (h : ∀ x y, r' x y ↔ r x y ∨ x = a ∧ y = b) :
    (∃ x, TransGen r' x x) ↔ (∃ x, TransGen r x x) ∨ ReflTransGen r b a := by
  have hmono : ∀ x y, r x y → r' x y := fun x y hold => (h x y).mpr (.inl hold)
  constructor
  · rintro ⟨x, hcycle⟩
    rcases transGen_of_insert (fun x y => (h x y).mp) hcycle with hold | ⟨hbefore, hafter⟩
    · exact .inl ⟨x, hold⟩
    · exact .inr (hafter.trans hbefore)
  · rintro (⟨x, hcycle⟩ | hback)
    · exact ⟨x, TransGen.mono hmono _ _ hcycle⟩
    · exact ⟨a, .head' ((h a b).mpr (.inr ⟨rfl, rfl⟩)) (ReflTransGen.mono hmono _ _ hback)⟩

/-- A node with one link more declares, of all nodes, one link more between definitions. -/
theorem WellFormed.declaredUnder_setNode (hc : c.WellFormed) {node node' : Node}
    (hnode : c.node? type = some node) (halike : node'.Alike node) (hknown : c.knows link = true)
    (hlinks : ∀ l, node'.base = some l ∨ l ∈ node'.interfaces ↔
      (node.base = some l ∨ l ∈ node.interfaces) ∨ l = link) :
    (c.setNode type node').DeclaredUnder x y ↔
      c.DeclaredUnder x y ∨ x = type ∧ y = c.unbound link := by
  have hp := preserves_setNode hnode halike
  have hnode? := node?_setNode (knows_of_node? hnode) node'
  have hinherits : ∀ l, (c.setNode type node').Inherits x l ↔
      c.Inherits x l ∨ x = type ∧ l = link := by
    intro l
    by_cases heq : x = type
    · subst heq
      have hset : (c.setNode x node').node? x = some node' := by rw [hnode?, if_pos rfl]
      rw [inherits_of_node? hset, inherits_of_node? hnode, hlinks l]
      simp
    · have hset : (c.setNode type node').node? x = c.node? x := by rw [hnode?, if_neg heq]
      simp [Inherits, base?, interfaces, hset, heq]
  unfold DeclaredUnder
  constructor
  · rintro ⟨l, hl, rfl⟩
    rcases (hinherits l).mp hl with hold | ⟨rfl, rfl⟩
    · exact .inl ⟨l, hold, (hp.unbound (hc.knows_of_inherits hold).1).symm⟩
    · exact .inr ⟨rfl, hp.unbound hknown⟩
  · rintro (⟨l, hold, rfl⟩ | ⟨rfl, rfl⟩)
    · exact ⟨l, (hinherits l).mpr (.inl hold), hp.unbound (hc.knows_of_inherits hold).1⟩
    · exact ⟨link, (hinherits link).mpr (.inr ⟨rfl, rfl⟩), hp.unbound hknown⟩

/-- Of a declared link only the definition it leads to is seen. -/
theorem DeclaresLink.declaredUnder_iff (h : DeclaresLink c type link c') (hc : c.WellFormed) :
    c'.DeclaredUnder x y ↔ c.DeclaredUnder x y ∨ x = type ∧ y = c.unbound link := by
  cases h with
  | interface hrun =>
    obtain ⟨node, linkNode, hnode, hlink, -, rfl⟩ := addInterface_eq_ok_iff.mp hrun
    split
    · rename_i hmem
      have hold : c.DeclaredUnder type (c.unbound link) :=
        ⟨link, (inherits_of_node? hnode).mpr (.inr hmem), rfl⟩
      refine ⟨.inl, ?_⟩
      rintro (hxy | ⟨rfl, rfl⟩)
      · exact hxy
      · exact hold
    · refine hc.declaredUnder_setNode hnode ⟨rfl, rfl, rfl, rfl⟩ (knows_of_node? hlink) fun l => ?_
      simp [or_assoc]
  | base hnone hrun =>
    obtain ⟨node, linkNode, hnode, hlink, -, rfl⟩ := setBase_eq_ok_iff.mp hrun
    rw [base?_of_node? hnode] at hnone
    refine hc.declaredUnder_setNode hnode ⟨rfl, rfl, rfl, rfl⟩ (knows_of_node? hlink) fun l => ?_
    simp [hnone, or_comm, eq_comm]

theorem DeclaresLink.reachable (h : DeclaresLink c type link c') (hc : c.Reachable) :
    c'.Reachable := by
  cases h with
  | interface hrun => exact hc.perform_eq (.addInterface type link) (congrArg Prod.snd hrun)
  | base _ hrun => exact hc.perform_eq (.setBase type link) (congrArg Prod.snd hrun)

end

/-! ## 3. Finishing -/

/-- A catalogue is refused for a cycle exactly if there is one: some type leads back to itself
by declared bases and interfaces, each taken to its definition. The name that is reported is
that of a type on such a cycle. A link counts by its definition alone: one link more closes a
cycle exactly if its definition leads to the type that declares it, whatever its arguments
mention. -/
theorem finish_refuses_cycles {c : Catalog} (hc : c.Reachable) :
    (c.RefusedForCycle ↔ ∃ id, TransGen c.DeclaredUnder id id) ∧
      (∀ name, c.finish = .error (.inheritanceCycle name) →
        ∃ id, c.knows id = true ∧ TransGen c.DeclaredUnder id id ∧ name = c.display id) ∧
      ∀ type link c', DeclaresLink c type link c' →
        (c'.RefusedForCycle ↔
          c.RefusedForCycle ∨ ReflTransGen c.DeclaredUnder (c.unbound link) type) := by
  have hwf := hc.wellFormed
  refine ⟨hwf.refusedForCycle_iff, fun name hfinish => ?_, fun type link c' hlink => ?_⟩
  · obtain ⟨id, hfound, rfl⟩ := hwf.finish_eq_cycle_iff.mp hfinish
    have hcycle := cycle_of_inheritanceCycle? hfound
    obtain ⟨_, ⟨link, hlink, -⟩, -⟩ := TransGen.head'_iff.mp hcycle
    obtain ⟨node, hnode, -⟩ := hlink.node?
    exact ⟨id, knows_of_node? hnode, hcycle, rfl⟩
  · rw [(hlink.reachable hc).wellFormed.refusedForCycle_iff, hwf.refusedForCycle_iff]
    exact exists_cycle_insert_iff fun x y => hlink.declaredUnder_iff hwf

/-! ## 4. Ordered types

An interface that is comparable with itself. It mentions itself in its only link, which is no
cycle. If what is comparable had to be ordered in turn, that would be one. -/

/-- The interfaces `Ordered` and `Comparable<T>`, and `Comparable<Ordered>`. -/
def ordered : Catalog where
  nodes := #[
    ⟨"Ordered", .interfaceType, .plain, 0, none, []⟩,
    ⟨"Comparable", .interfaceType, .definition [⟨2⟩], 0, none, []⟩,
    ⟨"T", .classType, .parameter 0, 0, none, []⟩,
    ⟨"Comparable", .interfaceType, .application ⟨1⟩ [⟨0⟩], 1, none, []⟩]
  declared := ((∅ : Std.HashMap String TypeId).insertIfNew "Ordered" ⟨0⟩).insertIfNew
    "Comparable" ⟨1⟩
  applications := (∅ : Std.HashMap (TypeId × List TypeId) TypeId).insert (⟨1⟩, [⟨0⟩]) ⟨3⟩

/-- `ordered` with `Ordered : Comparable<Ordered>`. -/
def orderedComparable : Catalog :=
  ordered.setNode ⟨0⟩ ⟨"Ordered", .interfaceType, .plain, 0, none, [⟨3⟩]⟩

/-- `orderedComparable` with `Comparable<T> : Ordered`. -/
def orderedRound : Catalog :=
  orderedComparable.setNode ⟨1⟩
    ⟨"Comparable", .interfaceType, .definition [⟨2⟩], 0, none, [⟨0⟩]⟩

theorem reachable_ordered : ordered.Reachable := by
  have hdeclared := (Reachable.empty.perform (.declare .interfaceType "Ordered" [])).perform
    (.declare .interfaceType "Comparable" ["T"])
  have hcomparable := hdeclared.perform_eq (.instantiate ⟨1⟩ [⟨0⟩]) (congrArg Prod.snd
    (instantiate_new ⟨1⟩ [⟨0⟩] rfl rfl rfl (by decide) (by decide) Std.HashMap.getElem?_empty
      (by decide) (by decide)))
  exact hcomparable

theorem linkless_ordered : ordered.Linkless := by
  unfold Linkless
  decide

/-- `Ordered : Comparable<Ordered>` is no cycle, and with `Comparable<T> : Ordered` there is one,
which a refusal names. -/
theorem finish_refuses_cycles_ordered :
    (ordered.Reachable ∧ DeclaresLink ordered ⟨0⟩ ⟨3⟩ orderedComparable ∧
      DeclaresLink orderedComparable ⟨1⟩ ⟨0⟩ orderedRound) ∧
    ¬ orderedComparable.RefusedForCycle ∧ orderedRound.RefusedForCycle ∧
    ∃ id, TransGen orderedRound.DeclaredUnder id id ∧
      orderedRound.finish = .error (.inheritanceCycle (orderedRound.display id)) := by
  have hfirst : DeclaresLink ordered ⟨0⟩ ⟨3⟩ orderedComparable := .interface rfl
  have hsecond : DeclaresLink orderedComparable ⟨1⟩ ⟨0⟩ orderedRound := .interface rfl
  have hreachable := hfirst.reachable reachable_ordered
  obtain ⟨hnone, -, hone⟩ := finish_refuses_cycles reachable_ordered
  obtain ⟨-, -, htwo⟩ := finish_refuses_cycles hreachable
  obtain ⟨-, hname, -⟩ := finish_refuses_cycles (hsecond.reachable hreachable)
  have hnothing : ∀ {x y}, ¬ ordered.DeclaredUnder x y := by
    rintro x y ⟨link, hlink, -⟩
    exact linkless_ordered.not_inherits hlink
  have hfree : ¬ orderedComparable.RefusedForCycle := by
    rw [hone _ _ _ hfirst, hnone]
    rintro (⟨id, hcycle⟩ | hback)
    · obtain ⟨_, hstep, -⟩ := TransGen.head'_iff.mp hcycle
      exact hnothing hstep
    · rcases ReflTransGen.cases_head hback with heq | ⟨_, hstep, -⟩
      · exact absurd heq (by decide)
      · exact hnothing hstep
  have hround : orderedRound.RefusedForCycle := by
    rw [htwo _ _ _ hsecond]
    exact .inr (.single ⟨⟨3⟩, .inr List.mem_cons_self, rfl⟩)
  refine ⟨⟨reachable_ordered, hfirst, hsecond⟩, hfree, hround, ?_⟩
  obtain ⟨name, hfinish⟩ := hround
  obtain ⟨id, -, hcycle, rfl⟩ := hname name hfinish
  exact ⟨id, hcycle, hfinish⟩

end Generics.Catalog

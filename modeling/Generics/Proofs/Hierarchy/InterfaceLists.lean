/-
Generics.Proofs.Hierarchy.InterfaceLists — the lists of inherited interfaces are what
recursion on links gives.

`ListsInterfaces` describes the lists by an equation that goes from a type to the types it
is linked to. Where links have no cycle the recursion ends and the equation has one solution
(`ListsInterfaces.unique`). The lists are not worked out by recursion: a loop with a stack
reads and writes a memo. That it still finds the solution is a matter of the order. When the
list of a type is made those of its supertypes are in the memo, and when the loop is over
every type has an entry, so nothing is ever read that is not there (`InterfacesListed`).
-/
import Generics.Proofs.Ancestor.Reachability

namespace Generics.Catalog

open Relation

section

variable {c : Catalog} {id i : TypeId} {lists : TypeId → List TypeId}

/-! ## 1. One solution -/

/-- The lists that a catalogue gets are the solution. -/
theorem WellFormed.listsInterfaces_iff (hc : c.WellFormed)
    (hacyclic : ∀ id, ¬ TransGen c.Inherits id id) :
    c.ListsInterfaces lists ↔ ∀ id, lists id = c.listedInterfaces id := by
  obtain ⟨rank, hdown⟩ := hc.exists_rank_of_acyclic hacyclic
  have hlisted := hc.listsInterfaces hacyclic
  constructor
  · exact fun h => h.unique hdown hlisted
  · intro hsame
    rwa [funext hsame]

/-! ## 2. What is in a list -/

/-- The interfaces among the types that links lead to are those that some type on the way
lists: a base is no interface. -/
theorem WellFormed.inheritsInterface_iff (hc : c.WellFormed) :
    c.InheritsInterface id i ↔
      c.kind? i = some .interfaceType ∧ TransGen c.Inherits id i := by
  constructor
  · exact fun h => ⟨h.kind? hc, h.transGen⟩
  · rintro ⟨hkind, hpath⟩
    obtain ⟨owner, hpath, hlast⟩ := TransGen.tail'_iff.mp hpath
    rcases hlast with hbase | hmem
    · obtain ⟨node, hnode, hnbase⟩ := Option.bind_eq_some_iff.mp hbase
      cases hkind.symm.trans ((hc.links hnode).base hnbase).1
    · exact ⟨owner, hpath, hmem⟩

theorem ListsInterfaces.mem_of_inheritsInterface (h : c.ListsInterfaces lists)
    (hi : c.InheritsInterface id i) : i ∈ lists id := by
  obtain ⟨owner, hpath, hmem⟩ := hi
  induction hpath using ReflTransGen.head_induction_on with
  | refl => exact h.mem_iff.mpr (.inl hmem)
  | head hlink _ ih => exact h.mem_iff.mpr (.inr ⟨_, hlink, ih⟩)

/-- The list of a type holds the interfaces that links lead to. -/
theorem WellFormed.mem_listedInterfaces_iff (hc : c.WellFormed)
    (hacyclic : ∀ id, ¬ TransGen c.Inherits id id) :
    i ∈ c.listedInterfaces id ↔
      c.kind? i = some .interfaceType ∧ TransGen c.Inherits id i := by
  rw [← hc.inheritsInterface_iff]
  exact ⟨hc.inheritsInterface_of_listed hacyclic,
    (hc.listsInterfaces hacyclic).mem_of_inheritsInterface⟩

end

/-! ## 3. Listing -/

/-- Listing the inherited interfaces of a catalogue does what it is to do. Whatever has been
worked out, the loop halts on any type, and it makes no list before those of the supertypes.
So every type gets an entry, and the entries are the one solution of the recursion on links.
They have no repetitions and hold just the interfaces that one link or more lead to. -/
structure InterfacesListed (c : Catalog) : Prop where
  halts : ∀ memo id, c.Worked memo → c.knows id = true →
    ∃ memo', Halts c.listingTurn ([(id, false)], memo) memo' ∧ c.Worked memo' ∧
      memo.Extends memo' ∧ (memo'.list? id).isSome
  supertypesFirst : ∀ memo root, c.Worked memo → c.knows root = true →
    ∀ id rest memo', ReflTransGen (fun state next => c.listingTurn state = .inl next)
        ([(root, false)], memo) ((id, true) :: rest, memo') →
      memo'.list? id = none → ∀ link, c.Inherits id link → (memo'.list? link).isSome
  entry : ∀ id, c.knows id = true →
    c.interfaceMemo[id.index]? = some (some (c.listedInterfaces id))
  recursive : ∀ lists, c.ListsInterfaces lists ↔ ∀ id, lists id = c.listedInterfaces id
  final : ∀ id, c.withInheritedInterfaces.interfaces id = c.listedInterfaces id
  nodup : ∀ id, (c.listedInterfaces id).Nodup
  reached : ∀ id i, i ∈ c.listedInterfaces id ↔
    c.kind? i = some .interfaceType ∧ TransGen c.Inherits id i

theorem WellFormed.interfacesListed {c : Catalog} (hc : c.WellFormed)
    (hacyclic : ∀ id, ¬ TransGen c.Inherits id id) : c.InterfacesListed where
  halts _ _ := hc.halts_listing hacyclic
  supertypesFirst _ _ hmemo hroot _ _ _ hturns hnew _ :=
    ((listingState_root hmemo hroot).turns hc hturns).listed hnew
  entry id hid := by
    obtain ⟨list, hlist⟩ := Option.isSome_iff_exists.mp (hc.isSome_interfaceMemo hacyclic hid)
    rw [listedInterfaces_eq, hlist, Option.getD_some]
    exact Option.join_eq_some_iff.mp hlist
  recursive lists := hc.listsInterfaces_iff hacyclic
  final id := by
    cases hnode : c.node? id with
    | some node => exact interfaces_withInheritedInterfaces (knows_of_node? hnode)
    | none =>
      rw [interfaces, node?_withInheritedInterfaces, hc.listsInterfaces hacyclic id, interfaces,
        base?, hnode]
      rfl
  nodup id := by
    rw [hc.listsInterfaces hacyclic id]
    exact nodup_eraseDups _
  reached id i := hc.mem_listedInterfaces_iff hacyclic

/-- Inherited interfaces are listed as the recursion on links describes. Let a catalogue be
built by calls and let `direct` be it with all links of applications. If the links of
`direct` have no cycle its types get the lists they are to get. They have none if the
catalogue can be finished, and the finished catalogue is `direct` with these lists. -/
theorem inheritedInterfaces_listed {c : Catalog} (hc : c.Reachable) :
    (∀ direct, materializeFrom 0 c = (.ok (), direct) →
      (∀ id, ¬ TransGen direct.Inherits id id) → direct.InterfacesListed) ∧
    ∀ h, c.finish = .ok h → ∃ direct, materializeFrom 0 c = (.ok (), direct) ∧
      (∀ id, ¬ TransGen direct.Inherits id id) ∧
      h.catalog = direct.withInheritedInterfaces := by
  have hwf := hc.wellFormed
  refine ⟨fun direct hrun hacyclic =>
    (hwf.expands_of_ok hrun).1.wellFormed.interfacesListed hacyclic, fun h hfinish => ?_⟩
  obtain ⟨hcycle, direct, hrun, rfl⟩ := finish_eq_ok_iff.mp hfinish
  obtain ⟨hexpands, hdone⟩ := hwf.expands_of_ok hrun
  exact ⟨direct, hrun, hexpands.acyclic hwf hdone hcycle, rfl⟩

/-- `Pair<string, string>`, which is linked to `Key<string>` twice, lists it once, and
`Box<string>` lists nothing. -/
theorem inheritedInterfaces_listed_pairs :
    (pairs.Reachable ∧ materializeFrom 0 pairs = (.ok (), pairsLinked) ∧
      (∀ id, ¬ TransGen pairsLinked.Inherits id id) ∧
      pairs.finish = .ok ⟨pairsFinished⟩) ∧
    pairsLinked.interfaceMemo[11]? = some (some [⟨13⟩]) ∧
    pairsFinished.interfaces ⟨11⟩ = [⟨13⟩] ∧ pairsFinished.interfaces ⟨12⟩ = [] := by
  obtain ⟨hlisted, hfinished⟩ := inheritedInterfaces_listed reachable_pairs
  obtain ⟨direct, hrun, hacyclic, -⟩ := hfinished _ finish_pairs
  cases materializeFrom_pairs.symm.trans hrun
  have hlists := hlisted pairsLinked materializeFrom_pairs hacyclic
  have hrec := (hlists.recursive pairsLinked.listedInterfaces).mpr fun _ => rfl
  have hleaf : ∀ id, pairsLinked.interfaces id = [] → pairsLinked.base? id = none →
      pairsLinked.listedInterfaces id = [] := by
    intro id hinterfaces hbase
    rw [hrec id, hinterfaces, hbase]
    rfl
  have hkey := hleaf ⟨13⟩ rfl rfl
  have hbox := hleaf ⟨12⟩ rfl rfl
  have hpair : pairsLinked.listedInterfaces ⟨11⟩ = [⟨13⟩] := by
    have hinterfaces : pairsLinked.interfaces ⟨11⟩ = [⟨13⟩, ⟨13⟩] := rfl
    have hbase : pairsLinked.base? ⟨11⟩ = some ⟨12⟩ := rfl
    rw [hrec ⟨11⟩, hinterfaces, hbase]
    simp [hkey, hbox, List.eraseDups_cons]
  refine ⟨⟨reachable_pairs, materializeFrom_pairs, hacyclic, finish_pairs⟩, ?_,
    (hlists.final ⟨11⟩).trans hpair, (hlists.final ⟨12⟩).trans hbox⟩
  rw [← hpair]
  exact hlists.entry ⟨11⟩ rfl

end Generics.Catalog

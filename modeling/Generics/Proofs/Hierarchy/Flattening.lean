/-
Generics.Proofs.Hierarchy.Flattening — working out the lists of inherited interfaces.

The loop meets a type, puts its supertypes above it on the stack and makes its list when it
comes back to it. A type may lie on the stack several times. `ListingState` is what every
turn keeps nevertheless: the lists in the memo are made of those of the supertypes, and what
a type still waits for lies above it (`ListingState.turn`). Where links have no cycle the
loop works off whatever it is given (`WellFormed.exists_worksOff`), so in the end every type
has a list.

Those lists solve the equation that the loop reads like (`ListsInterfaces`): the interfaces
of a type are its own, then those of each of its own, then those of its base, each once. No
other lists do (`ListsInterfaces.unique`).

`Completes` is what is known of a catalogue whose applications have their links,
right before the interfaces are listed.
-/
import Mathlib.Data.List.Nodup
import Generics.Proofs.Distinct
import Generics.Proofs.Hierarchy.DeclaredLinks

namespace Generics.Catalog

open Relation

/-! ## 1. Ranks -/

section

variable {c : Catalog}

/-- The types that a type is linked to, as vertices. -/
def supertypes (c : Catalog) (index : Nat) : List Nat :=
  match c.node? ⟨index⟩ with
  | none => []
  | some node => node.links.map TypeId.index

theorem edge_supertypes {v w : Nat} :
    Digraph.Edge c.supertypes v w ↔ c.Inherits ⟨v⟩ ⟨w⟩ := by
  unfold Digraph.Edge supertypes
  cases hnode : c.node? ⟨v⟩ with
  | none =>
    refine ⟨nofun, fun hlink => ?_⟩
    obtain ⟨node, hnode', -⟩ := hlink.node?
    rw [hnode] at hnode'
    cases hnode'
  | some node =>
    simp only [inherits_of_node? hnode, List.mem_map, Node.links, List.mem_append,
      Option.mem_toList]
    constructor
    · rintro ⟨link, hlink, rfl⟩
      exact hlink
    · intro hlink
      exact ⟨⟨w⟩, hlink, rfl⟩

/-- Without cycles types have ranks that go down along links: a search of the links
leaves supertypes first. -/
theorem WellFormed.exists_rank_of_acyclic (hc : c.WellFormed)
    (hacyclic : ∀ id, ¬ TransGen c.Inherits id id) :
    ∃ rank : TypeId → Nat, ∀ id link, c.Inherits id link → rank link < rank id := by
  have hbound : ∀ v w, Digraph.Edge c.supertypes v w → v < c.size ∧ w < c.size := by
    intro v w hedge
    have hlink := edge_supertypes.mp hedge
    obtain ⟨node, hnode, -⟩ := hlink.node?
    exact ⟨knows_iff.mp (knows_of_node? hnode), knows_iff.mp (hc.knows_of_inherits hlink).1⟩
  cases hsearch : Digraph.finishOrder c.size c.supertypes with
  | ok order =>
    obtain ⟨rank, -, hdown⟩ := Digraph.exists_rank_of_ok hbound hsearch
    exact ⟨fun id => rank id.index, fun id link hlink => hdown _ _ (edge_supertypes.mpr hlink)⟩
  | error v =>
    have hcycle := (Digraph.mem_cycle_of_error hsearch).lift TypeId.mk
      fun v w hedge => edge_supertypes.mp hedge
    exact absurd hcycle (hacyclic ⟨v⟩)

end

/-! ## 2. The memo -/

section

variable {c : Catalog} {id link other : TypeId} {node : Node} {memo memo' : InterfaceMemo}

theorem InterfaceMemo.list?_replicate (n : Nat) (id : TypeId) :
    InterfaceMemo.list? (Array.replicate n none) id = none := by
  rw [InterfaceMemo.list?, Array.getElem?_replicate]
  split <;> rfl

theorem InterfaceMemo.list?_set_self (h : id.index < memo.size) (list : List TypeId) :
    InterfaceMemo.list? (memo.setIfInBounds id.index (some list)) id = some list := by
  rw [InterfaceMemo.list?, Array.getElem?_setIfInBounds_self_of_lt h]
  rfl

theorem InterfaceMemo.list?_set_of_ne {list : List TypeId} (h : id ≠ other) :
    InterfaceMemo.list? (memo.setIfInBounds id.index (some list)) other = memo.list? other := by
  have hne : id.index ≠ other.index := fun heq => h (congrArg TypeId.mk heq)
  rw [InterfaceMemo.list?, InterfaceMemo.list?, Array.getElem?_setIfInBounds_ne hne]

/-- The lists of `memo` are in `memo'` too. -/
def InterfaceMemo.Extends (memo memo' : InterfaceMemo) : Prop :=
  ∀ id, (memo.list? id).isSome → memo'.list? id = memo.list? id

theorem InterfaceMemo.Extends.refl (memo : InterfaceMemo) : memo.Extends memo :=
  fun _ _ => rfl

theorem InterfaceMemo.Extends.isSome (h : memo.Extends memo') (hid : (memo.list? id).isSome) :
    (memo'.list? id).isSome := by
  rwa [h id hid]

theorem InterfaceMemo.Extends.trans {memo'' : InterfaceMemo} (h : memo.Extends memo')
    (h' : memo'.Extends memo'') : memo.Extends memo'' :=
  fun id hid => (h' id (h.isSome hid)).trans (h id hid)

/-- A list more. -/
theorem InterfaceMemo.extends_set (hnew : memo.list? id = none) (list : List TypeId) :
    memo.Extends (memo.setIfInBounds id.index (some list)) := by
  intro other hother
  refine InterfaceMemo.list?_set_of_ne ?_
  rintro rfl
  rw [hnew] at hother
  cases hother

/-- The list of a type depends on the lists of the types it is linked to. -/
theorem inheritedBy_congr (hnode : c.node? id = some node)
    (h : ∀ link, c.Inherits id link → memo'.list? link = memo.list? link) :
    inheritedBy memo' node = inheritedBy memo node := by
  have hsame : ∀ link, node.base = some link ∨ link ∈ node.interfaces →
      memo'.list? link = memo.list? link :=
    fun link hlink => h link ((inherits_of_node? hnode).mpr hlink)
  have hbase : node.base.toList.map (fun link => (memo'.list? link).getD []) =
      node.base.toList.map fun link => (memo.list? link).getD [] :=
    List.map_congr_left fun link hlink => by
      rw [hsame link (.inl (Option.mem_toList.mp hlink))]
  have hinterfaces : node.interfaces.map (fun link => (memo'.list? link).getD []) =
      node.interfaces.map fun link => (memo.list? link).getD [] :=
    List.map_congr_left fun link hlink => by rw [hsame link (.inr hlink)]
  simp only [inheritedBy, List.flatMap_def, hbase, hinterfaces]

/-- The lists that have been worked out: each is made of the lists of the supertypes, and
those are there. -/
structure Worked (c : Catalog) (memo : InterfaceMemo) : Prop where
  size : memo.size = c.size
  list : ∀ {id node list}, c.node? id = some node → memo.list? id = some list →
    list = inheritedBy memo node
  closed : ∀ {id link}, (memo.list? id).isSome → c.Inherits id link → (memo.list? link).isSome

theorem worked_empty (c : Catalog) : c.Worked (Array.replicate c.size none) where
  size := Array.size_replicate
  list _ hlist := by
    rw [InterfaceMemo.list?_replicate] at hlist
    cases hlist
  closed hid := by
    rw [InterfaceMemo.list?_replicate] at hid
    cases hid

/-- One list more. The lists that are there do not use it: those of their supertypes were
there before. -/
theorem Worked.set (h : c.Worked memo) (hnode : c.node? id = some node)
    (hnew : memo.list? id = none)
    (hlinks : ∀ link, c.Inherits id link → (memo.list? link).isSome) :
    c.Worked (memo.setIfInBounds id.index (some (inheritedBy memo node))) := by
  have hextends := InterfaceMemo.extends_set hnew (inheritedBy memo node)
  have hself := InterfaceMemo.list?_set_self
    (h.size ▸ knows_iff.mp (knows_of_node? hnode)) (inheritedBy memo node)
  refine ⟨by rw [Array.size_setIfInBounds, h.size], ?_, ?_⟩
  · intro other node' list hnode' hlist
    by_cases heq : id = other
    · subst heq
      cases hnode.symm.trans hnode'
      rw [hself] at hlist
      cases hlist
      exact (inheritedBy_congr hnode fun link hlink => hextends link (hlinks link hlink)).symm
    · rw [InterfaceMemo.list?_set_of_ne heq] at hlist
      have hclosed : ∀ link, c.Inherits other link → (memo.list? link).isSome :=
        fun link => h.closed (Option.isSome_of_eq_some hlist)
      rw [h.list hnode' hlist]
      exact (inheritedBy_congr hnode' fun link hlink => hextends link (hclosed link hlink)).symm
  · intro other link hother hlink
    by_cases heq : id = other
    · subst heq
      exact hextends.isSome (hlinks link hlink)
    · rw [InterfaceMemo.list?_set_of_ne heq] at hother
      exact hextends.isSome (h.closed hother hlink)

end

/-! ## 3. One turn -/

section

variable {c : Catalog} {id : TypeId} {node : Node} {memo memo' : InterfaceMemo}
  {above above' : List TypeId} {stack rest : List (TypeId × Bool)} {supertypesDone : Bool}

/-- The supertypes of a type that have no list, from the top of the stack down. -/
def pending (memo : InterfaceMemo) (node : Node) : List TypeId :=
  ((node.interfaces ++ node.base.toList).filter fun link => (memo.list? link).isNone).reverse

theorem mem_pending {link : TypeId} (hnode : c.node? id = some node) :
    link ∈ pending memo node ↔ c.Inherits id link ∧ memo.list? link = none := by
  simp only [pending, List.mem_reverse, List.mem_filter, List.mem_append, Option.mem_toList,
    inherits_of_node? hnode, Option.isNone_iff_eq_none, or_comm]

theorem pushSupertypes_eq (memo : InterfaceMemo) (node : Node) (stack : List (TypeId × Bool)) :
    pushSupertypes memo node stack = (pending memo node).map (·, false) ++ stack := by
  unfold pushSupertypes pending
  induction (node.interfaces ++ node.base.toList).filter (fun link => (memo.list? link).isNone)
    generalizing stack with
  | nil => rfl
  | cons link rest ih =>
    rw [List.foldl_cons, ih, List.reverse_cons, List.map_append, List.append_assoc]
    rfl

theorem listingTurn_of_listed (h : (memo.list? id).isSome) :
    c.listingTurn ((id, supertypesDone) :: rest, memo) = .inl (rest, memo) := by
  obtain ⟨list, hlist⟩ := Option.isSome_iff_exists.mp h
  simp only [listingTurn, hlist]

theorem listingTurn_first (hnode : c.node? id = some node) (hnew : memo.list? id = none) :
    c.listingTurn ((id, false) :: rest, memo) =
      .inl ((pending memo node).map (·, false) ++ (id, true) :: rest, memo) := by
  simp only [listingTurn, hnode, hnew, pushSupertypes_eq]
  rfl

theorem listingTurn_second (hnode : c.node? id = some node) (hnew : memo.list? id = none) :
    c.listingTurn ((id, true) :: rest, memo) =
      .inl (rest, memo.setIfInBounds id.index (some (inheritedBy memo node))) := by
  simp only [listingTurn, hnode, hnew]
  rfl

/-- What a type on the stack waits for lies above it: where a type is met for the second
time, each supertype that has no list is one of `above`, the types met by then. -/
def Awaited (c : Catalog) (memo : InterfaceMemo) :
    List TypeId → List (TypeId × Bool) → Prop
  | _, [] => True
  | above, (id, supertypesDone) :: rest =>
    (supertypesDone = true → memo.list? id = none → ∀ link, c.Inherits id link →
      memo.list? link = none → link ∈ above) ∧ c.Awaited memo (id :: above) rest

/-- More lists, and fewer types above, as long as those that go have lists. -/
theorem Awaited.mono (h : c.Awaited memo above stack) (hextends : memo.Extends memo')
    (habove : ∀ id ∈ above, memo'.list? id = none → id ∈ above') :
    c.Awaited memo' above' stack := by
  have hnone : ∀ {id}, memo'.list? id = none → memo.list? id = none := by
    intro id hid
    by_contra hsome
    have hlisted := hextends.isSome (Option.isSome_iff_ne_none.mpr hsome)
    rw [hid] at hlisted
    cases hlisted
  induction stack generalizing above above' with
  | nil => trivial
  | cons entry rest ih =>
    obtain ⟨id, supertypesDone⟩ := entry
    refine ⟨fun hdone hid link hlink hnew => ?_, ih h.2 fun other hother hnew => ?_⟩
    · exact habove link (h.1 hdone (hnone hid) link hlink (hnone hnew)) hnew
    · rcases List.mem_cons.mp hother with rfl | hother
      · exact List.mem_cons_self
      · exact List.mem_cons_of_mem _ (habove other hother hnew)

/-- Types met for the first time wait for nothing. -/
theorem awaited_append (links : List TypeId) :
    c.Awaited memo above (links.map (·, false) ++ stack) ↔
      c.Awaited memo (links.reverse ++ above) stack := by
  induction links generalizing above with
  | nil => rfl
  | cons link rest ih =>
    rw [List.map_cons, List.cons_append, Awaited, ih, List.reverse_cons, List.append_assoc]
    exact ⟨And.right, fun h => ⟨nofun, h⟩⟩

/-- The state of the loop between two turns. -/
structure ListingState (c : Catalog) (state : List (TypeId × Bool) × InterfaceMemo) : Prop where
  worked : c.Worked state.2
  known : ∀ entry ∈ state.1, c.knows entry.1 = true
  awaited : c.Awaited state.2 [] state.1

theorem listingState_root (h : c.Worked memo) (hid : c.knows id = true) :
    c.ListingState ([(id, false)], memo) where
  worked := h
  known entry hentry := by rwa [List.mem_singleton.mp hentry]
  awaited := ⟨nofun, trivial⟩

/-- A type met for the second time has supertypes with lists. -/
theorem ListingState.listed (h : c.ListingState ((id, true) :: rest, memo))
    (hnew : memo.list? id = none) {link : TypeId} (hlink : c.Inherits id link) :
    (memo.list? link).isSome := by
  by_contra hnone
  rw [Bool.not_eq_true, Option.isSome_eq_false_iff, Option.isNone_iff_eq_none] at hnone
  exact absurd (h.awaited.1 rfl hnew link hlink hnone) List.not_mem_nil

theorem ListingState.turn (hc : c.WellFormed) {state next}
    (h : c.ListingState state) (hturn : c.listingTurn state = .inl next) :
    c.ListingState next := by
  obtain ⟨_ | ⟨⟨id, supertypesDone⟩, rest⟩, memo⟩ := state
  · cases hturn
  have hknown : ∀ entry ∈ rest, c.knows entry.1 = true := fun entry hentry =>
    h.known entry (List.mem_cons_of_mem _ hentry)
  obtain ⟨node, hnode⟩ := node?_of_knows (h.known _ List.mem_cons_self)
  cases hlist : memo.list? id with
  | some list =>
    have hlisted : (memo.list? id).isSome := Option.isSome_of_eq_some hlist
    cases (listingTurn_of_listed hlisted).symm.trans hturn
    refine ⟨h.worked, hknown, h.awaited.2.mono (.refl _) fun other hother hnew => ?_⟩
    cases List.mem_singleton.mp hother
    cases hlist.symm.trans hnew
  | none =>
    cases supertypesDone with
    | false =>
      cases (listingTurn_first hnode hlist).symm.trans hturn
      refine ⟨h.worked, fun entry hentry => ?_, (awaited_append _).mpr ⟨?_, ?_⟩⟩
      · rcases List.mem_append.mp hentry with hentry | hentry
        · obtain ⟨link, hlink, rfl⟩ := List.mem_map.mp hentry
          exact (hc.knows_of_inherits ((mem_pending hnode).mp hlink).1).1
        · rcases List.mem_cons.mp hentry with rfl | hentry
          · exact knows_of_node? hnode
          · exact hknown entry hentry
      · intro _ _ link hlink hnew
        rw [List.append_nil, List.mem_reverse]
        exact (mem_pending hnode).mpr ⟨hlink, hnew⟩
      · refine h.awaited.2.mono (.refl _) fun other hother _ => ?_
        cases List.mem_singleton.mp hother
        exact List.mem_cons_self
    | true =>
      cases (listingTurn_second hnode hlist).symm.trans hturn
      have hworked := h.worked.set hnode hlist fun link => h.listed hlist
      refine ⟨hworked, hknown, h.awaited.2.mono (InterfaceMemo.extends_set hlist _)
        fun other hother hnew => ?_⟩
      cases List.mem_singleton.mp hother
      rw [InterfaceMemo.list?_set_self
        (h.worked.size ▸ knows_iff.mp (knows_of_node? hnode))] at hnew
      cases hnew

/-- What holds between turns holds at every state that turns lead to. -/
theorem ListingState.turns (hc : c.WellFormed) {state next}
    (h : c.ListingState state)
    (hturns : ReflTransGen (fun state next => c.listingTurn state = .inl next) state next) :
    c.ListingState next := by
  induction hturns with
  | refl => exact h
  | tail _ hturn ih => exact ih.turn hc hturn

end

/-! ## 4. Halting -/

/-- From `memo`, the loop works off `stack` and then has `memo'`, whatever lies below. -/
structure WorksOff (c : Catalog) (memo : InterfaceMemo) (stack : List (TypeId × Bool))
    (memo' : InterfaceMemo) : Prop where
  size : memo'.size = memo.size
  keeps : memo.Extends memo'
  listed : ∀ entry ∈ stack, (memo'.list? entry.1).isSome
  halts : ∀ rest answer, Halts c.listingTurn (rest, memo') answer →
    Halts c.listingTurn (stack ++ rest, memo) answer

section

variable {c : Catalog} {id : TypeId} {memo memo' memo'' : InterfaceMemo}
  {stack stack' : List (TypeId × Bool)}

theorem worksOff_nil (c : Catalog) (memo : InterfaceMemo) : c.WorksOff memo [] memo :=
  ⟨rfl, .refl memo, nofun, fun _ _ h => h⟩

theorem WorksOff.append (h : c.WorksOff memo stack memo')
    (h' : c.WorksOff memo' stack' memo'') : c.WorksOff memo (stack ++ stack') memo'' where
  size := h'.size.trans h.size
  keeps := h.keeps.trans h'.keeps
  listed entry hentry := by
    rcases List.mem_append.mp hentry with hentry | hentry
    · exact h'.keeps.isSome (h.listed entry hentry)
    · exact h'.listed entry hentry
  halts rest answer hrest := by
    rw [List.append_assoc]
    exact h.halts _ _ (h'.halts rest answer hrest)

/-- A type that has a list is dropped. -/
theorem worksOff_of_listed (h : (memo.list? id).isSome) (supertypesDone : Bool) :
    c.WorksOff memo [(id, supertypesDone)] memo where
  size := rfl
  keeps := .refl memo
  listed entry hentry := by rwa [List.mem_singleton.mp hentry]
  halts rest answer hrest := .next (listingTurn_of_listed h) hrest

/-- A type that is met for the second time gets a list if it has none. -/
theorem exists_worksOff_second (hsize : memo.size = c.size) (hid : c.knows id = true) :
    ∃ memo', c.WorksOff memo [(id, true)] memo' := by
  obtain ⟨node, hnode⟩ := node?_of_knows hid
  cases hlist : memo.list? id with
  | some list => exact ⟨memo, worksOff_of_listed (Option.isSome_of_eq_some hlist) true⟩
  | none =>
    have hself := InterfaceMemo.list?_set_self (hsize ▸ knows_iff.mp hid) (inheritedBy memo node)
    exact ⟨_, Array.size_setIfInBounds, InterfaceMemo.extends_set hlist _,
      fun entry hentry => by
        rw [List.mem_singleton.mp hentry]
        exact Option.isSome_of_eq_some hself,
      fun rest answer hrest => .next (listingTurn_second hnode hlist) hrest⟩

/-- Where ranks go down along links a type is worked off. The induction is on the rank: the
supertypes that come to lie above a type are worked off one after the other. -/
theorem WellFormed.exists_worksOff (hc : c.WellFormed) {rank : TypeId → Nat}
    (hdown : ∀ id link, c.Inherits id link → rank link < rank id)
    (hsize : memo.size = c.size) (hid : c.knows id = true) :
    ∃ memo', c.WorksOff memo [(id, false)] memo' := by
  induction hn : rank id using Nat.strongRecOn generalizing id memo with
  | ind n ih =>
    obtain ⟨node, hnode⟩ := node?_of_knows hid
    cases hlist : memo.list? id with
    | some list => exact ⟨memo, worksOff_of_listed (Option.isSome_of_eq_some hlist) false⟩
    | none =>
      have hall : ∀ (links : List TypeId) (memo : InterfaceMemo), memo.size = c.size →
          (∀ link ∈ links, c.Inherits id link) →
          ∃ memo', c.WorksOff memo (links.map (·, false)) memo' := by
        intro links
        induction links with
        | nil => exact fun memo _ _ => ⟨memo, worksOff_nil c memo⟩
        | cons link links ihlinks =>
          intro memo hsize hlinks
          have hlink := hlinks link List.mem_cons_self
          obtain ⟨memo₁, hfirst⟩ := ih (rank link) (hn ▸ hdown id link hlink) hsize
            (hc.knows_of_inherits hlink).1 rfl
          obtain ⟨memo₂, hothers⟩ := ihlinks memo₁ (hfirst.size.trans hsize) fun other hother =>
            hlinks other (List.mem_cons_of_mem _ hother)
          exact ⟨memo₂, hfirst.append hothers⟩
      obtain ⟨memo₁, hsupertypes⟩ := hall (pending memo node) memo hsize fun link hlink =>
        ((mem_pending hnode).mp hlink).1
      obtain ⟨memo₂, hself⟩ := exists_worksOff_second (hsupertypes.size.trans hsize) hid
      have hboth := hsupertypes.append hself
      refine ⟨memo₂, hboth.size, hboth.keeps, fun entry hentry => ?_, fun rest answer hrest => ?_⟩
      · rw [List.mem_singleton.mp hentry]
        exact hself.listed (id, true) List.mem_cons_self
      · refine .next (listingTurn_first hnode hlist) ?_
        have hstack := hboth.halts rest answer hrest
        rwa [List.append_assoc] at hstack

/-- Put on the stack alone, a type is worked off: the loop halts with a list for it. -/
theorem WellFormed.halts_listing (hc : c.WellFormed)
    (hacyclic : ∀ id, ¬ TransGen c.Inherits id id) (h : c.Worked memo)
    (hid : c.knows id = true) :
    ∃ memo', Halts c.listingTurn ([(id, false)], memo) memo' ∧ c.Worked memo' ∧
      memo.Extends memo' ∧ (memo'.list? id).isSome := by
  obtain ⟨rank, hdown⟩ := hc.exists_rank_of_acyclic hacyclic
  obtain ⟨memo', hrun⟩ := hc.exists_worksOff hdown h.size hid
  have hhalts : Halts c.listingTurn ([(id, false)], memo) memo' := hrun.halts [] memo' (.last rfl)
  obtain ⟨⟨_ | _, final⟩, hfinal, hlast⟩ :=
    hhalts.invariant (listingState_root h hid) fun hstate => hstate.turn hc
  · cases hlast
    exact ⟨memo', hhalts, hfinal.worked, hrun.keeps, hrun.listed _ List.mem_cons_self⟩
  · rw [listingTurn] at hlast
    split at hlast
    · split at hlast <;> cases hlast
    · cases hlast

/-- Putting types on the stack one after the other gives them lists. -/
theorem WellFormed.worked_foldl (hc : c.WellFormed)
    (hacyclic : ∀ id, ¬ TransGen c.Inherits id id) (roots : List Nat)
    (hroots : ∀ root ∈ roots, root < c.size) (h : c.Worked memo) :
    c.Worked (roots.foldl c.listFrom memo) ∧ memo.Extends (roots.foldl c.listFrom memo) ∧
      ∀ root ∈ roots, (InterfaceMemo.list? (roots.foldl c.listFrom memo) ⟨root⟩).isSome := by
  induction roots generalizing memo with
  | nil => exact ⟨h, .refl memo, nofun⟩
  | cons root roots ih =>
    obtain ⟨memo', hhalts, hworked, hextends, hlisted⟩ :=
      hc.halts_listing hacyclic h (knows_iff.mpr (hroots root List.mem_cons_self))
    obtain ⟨hworked', hextends', hothers⟩ :=
      ih (fun other hother => hroots other (List.mem_cons_of_mem _ hother)) hworked
    rw [List.foldl_cons, listFrom, hhalts.loop_eq]
    refine ⟨hworked', hextends.trans hextends', fun other hother => ?_⟩
    rcases List.mem_cons.mp hother with rfl | hother
    · exact hextends'.isSome hlisted
    · exact hothers other hother

theorem WellFormed.worked_interfaceMemo (hc : c.WellFormed)
    (hacyclic : ∀ id, ¬ TransGen c.Inherits id id) : c.Worked c.interfaceMemo :=
  (hc.worked_foldl hacyclic (List.range c.size) (fun _ => List.mem_range.mp) (worked_empty c)).1

/-- Every type has a list in the end. -/
theorem WellFormed.isSome_interfaceMemo (hc : c.WellFormed)
    (hacyclic : ∀ id, ¬ TransGen c.Inherits id id) (hid : c.knows id = true) :
    (c.interfaceMemo.list? id).isSome :=
  (hc.worked_foldl hacyclic (List.range c.size) (fun _ => List.mem_range.mp)
    (worked_empty c)).2.2 id.index (List.mem_range.mpr (knows_iff.mp hid))

end

/-! ## 5. The equation -/

/-- The interfaces that the finished catalogue lists for a type. -/
def listedInterfaces (c : Catalog) (id : TypeId) : List TypeId :=
  c.inheritedInterfaces[id.index]?.getD []

/-- `lists` are the inherited interfaces by recursion on links: the interfaces of a type are
its own, then those of each of its own in turn, then those of its base, and of equal ones the
first. -/
def ListsInterfaces (c : Catalog) (lists : TypeId → List TypeId) : Prop :=
  ∀ id, lists id =
    (c.interfaces id ++ (c.interfaces id).flatMap lists ++
      (c.base? id).toList.flatMap lists).eraseDups

section

variable {c : Catalog} {id : TypeId} {lists lists' : TypeId → List TypeId}

theorem listedInterfaces_eq (c : Catalog) (id : TypeId) :
    c.listedInterfaces id = (c.interfaceMemo.list? id).getD [] := by
  rw [listedInterfaces, inheritedInterfaces, Array.getElem?_map, InterfaceMemo.list?]
  cases c.interfaceMemo[id.index]? <;> rfl

/-- The lists that a catalogue gets solve the equation. -/
theorem WellFormed.listsInterfaces (hc : c.WellFormed)
    (hacyclic : ∀ id, ¬ TransGen c.Inherits id id) : c.ListsInterfaces c.listedInterfaces := by
  have hworked := hc.worked_interfaceMemo hacyclic
  intro id
  cases hnode : c.node? id with
  | none =>
    have hsize : c.interfaceMemo.size ≤ id.index := by
      rw [hworked.size]
      exact Array.getElem?_eq_none_iff.mp hnode
    rw [listedInterfaces_eq, InterfaceMemo.list?, Array.getElem?_eq_none hsize, interfaces, base?,
      hnode]
    rfl
  | some node =>
    obtain ⟨list, hlist⟩ :=
      Option.isSome_iff_exists.mp (hc.isSome_interfaceMemo hacyclic (knows_of_node? hnode))
    rw [listedInterfaces_eq, hlist, Option.getD_some, hworked.list hnode hlist, inheritedBy,
      distinct_eq_eraseDups, interfaces_of_node? hnode, base?_of_node? hnode]
    simp only [← listedInterfaces_eq]

/-- The list of a type holds its own interfaces and those of what it is linked to. -/
theorem ListsInterfaces.mem_iff (h : c.ListsInterfaces lists) {i : TypeId} :
    i ∈ lists id ↔ i ∈ c.interfaces id ∨ ∃ link, c.Inherits id link ∧ i ∈ lists link := by
  rw [h id]
  simp only [List.mem_eraseDups, List.mem_append, List.mem_flatMap, Option.mem_toList, Inherits]
  grind

/-- With ranks that go down along links, the lists are determined by the links. -/
theorem ListsInterfaces.unique {rank : TypeId → Nat}
    (hdown : ∀ id link, c.Inherits id link → rank link < rank id)
    (h : c.ListsInterfaces lists) (h' : c.ListsInterfaces lists') (id : TypeId) :
    lists id = lists' id := by
  induction hn : rank id using Nat.strongRecOn generalizing id with
  | ind n ih =>
    have hlinked : ∀ link, c.Inherits id link → lists link = lists' link := fun link hlink =>
      ih (rank link) (hn ▸ hdown id link hlink) link rfl
    have hinterfaces : (c.interfaces id).flatMap lists = (c.interfaces id).flatMap lists' :=
      List.flatMap_congr fun link hlink => hlinked link (.inr hlink)
    have hbase : (c.base? id).toList.flatMap lists = (c.base? id).toList.flatMap lists' :=
      List.flatMap_congr fun link hlink => hlinked link (.inl (Option.mem_toList.mp hlink))
    rw [h id, h' id, hinterfaces, hbase]

end

/-! ## 6. Completed catalogues -/

/-- `direct` is `c` with all links of applications. Finishing lists the inherited
interfaces of such a catalogue. -/
structure Completes (c direct : Catalog) : Prop extends Expands c direct where
  wellFormed₀ : c.WellFormed
  materialized : ∀ id, direct.Materialized id
  noCycle : c.inheritanceCycle? = none

theorem WellFormed.completes_of_finish {c : Catalog} {h : Hierarchy} (hc : c.WellFormed)
    (hfinish : c.finish = .ok h) :
    ∃ direct, Completes c direct ∧ h = ⟨direct.withInheritedInterfaces⟩ := by
  obtain ⟨hcycle, direct, hrun, rfl⟩ := finish_eq_ok_iff.mp hfinish
  obtain ⟨hexpands, hdone⟩ := hc.expands_of_ok hrun
  exact ⟨direct, ⟨hexpands, hc, hdone, hcycle⟩, rfl⟩

namespace Completes

variable {c direct : Catalog} {id link : TypeId}

/-- Types have ranks that go down along links. -/
theorem exists_rank (h : Completes c direct) :
    ∃ rank : TypeId → Nat, ∀ id link, direct.Inherits id link → rank link < rank id := by
  obtain ⟨rank, -, hdown⟩ := h.wellFormed₀.exists_rank h.noCycle
  exact ⟨fun id => rank (direct.unbound id), fun id link hlink =>
    hdown _ _ (h.declaredUnder h.wellFormed₀ (h.materialized id) hlink)⟩

/-- No type inherits from itself. -/
theorem not_transGen (h : Completes c direct) (id : TypeId) : ¬ TransGen direct.Inherits id id :=
  h.acyclic h.wellFormed₀ h.materialized h.noCycle id

theorem listsInterfaces (h : Completes c direct) :
    direct.ListsInterfaces direct.listedInterfaces :=
  h.wellFormed.listsInterfaces h.not_transGen

/-- The list of a type begins with its own interfaces. -/
theorem interfaces_isPrefix (h : Completes c direct) (id : TypeId) :
    (direct.interfaces id).eraseDups <+: direct.listedInterfaces id := by
  rw [h.listsInterfaces id, List.append_assoc]
  exact eraseDups_isPrefix _ _

end Completes

end Generics.Catalog

/-
Generics.Proofs.Ancestor — which ancestor has a shape.

The bases above a type form a chain, which is followed for as many steps as there are
types. That is enough to meet them all, even where bases go round: of more bases than
types two are the same, and from there on nothing new follows
(`WellFormed.mem_bases_iff`).

In a finished catalogue no definition occurs in the chain twice: two
applications of one definition would be a cycle between definitions, which
finishing excludes. Interfaces are not classes. So a class definition is the
shape of at most one ancestor of a type (`ancestor_unique`), without any test for
this when the ancestor is looked up.
-/
import Mathlib.Data.Finset.Card
import Generics.Ancestor
import Generics.Proofs.Hierarchy.Acyclic

namespace Generics.Catalog

open Relation

/-- `b` is the base of `a`. -/
def BaseOf (c : Catalog) (a b : TypeId) : Prop :=
  c.base? a = some b

/-- `a` is `id`, stands above it in the chain of bases, or is one of its
interfaces. -/
def Ancestor (c : Catalog) (id a : TypeId) : Prop :=
  ReflTransGen c.BaseOf id a ∨ a ∈ c.interfaces id

/-- The type that stands a number of bases above a type, if there are so many. -/
def nthBase? (c : Catalog) (id : TypeId) : Nat → Option TypeId
  | 0 => some id
  | n + 1 => (c.nthBase? id n).bind c.base?

section

variable {c : Catalog} {h : Hierarchy} {id a b d : TypeId}

/-! ## 1. The chain of bases -/

/-- The way up can be cut anywhere. -/
theorem nthBase?_add (c : Catalog) (id : TypeId) (m n : Nat) :
    c.nthBase? id (m + n) = (c.nthBase? id m).bind fun a => c.nthBase? a n := by
  induction n with
  | zero => simp [nthBase?]
  | succ n ih =>
    rw [← Nat.add_assoc, nthBase?, ih, Option.bind_assoc]
    rfl

/-- The first step of the way up is to the base. -/
theorem nthBase?_succ (c : Catalog) (id : TypeId) (n : Nat) :
    c.nthBase? id (n + 1) = (c.base? id).bind fun a => c.nthBase? a n := by
  rw [Nat.add_comm, nthBase?_add]
  rfl

/-- Whoever comes to a type again goes on from there as before. -/
theorem nthBase?_add_congr {m n : Nat} (heq : c.nthBase? id m = c.nthBase? id n) (more : Nat) :
    c.nthBase? id (m + more) = c.nthBase? id (n + more) := by
  rw [nthBase?_add, nthBase?_add, heq]

/-- There is no way up without all that comes before. -/
theorem exists_nthBase?_of_le {m n : Nat} (hle : m ≤ n) (hb : c.nthBase? id n = some b) :
    ∃ a, c.nthBase? id m = some a := by
  obtain ⟨more, rfl⟩ := Nat.exists_eq_add_of_le hle
  rw [nthBase?_add] at hb
  obtain ⟨a, ha, -⟩ := Option.bind_eq_some_iff.mp hb
  exact ⟨a, ha⟩

/-- What stands above a type stands some number of bases above it. -/
theorem transGen_baseOf_iff : TransGen c.BaseOf id b ↔ ∃ n, c.nthBase? id (n + 1) = some b := by
  constructor
  · intro habove
    induction habove with
    | single hbase => exact ⟨0, hbase⟩
    | tail _ hbase ih =>
      obtain ⟨n, hn⟩ := ih
      exact ⟨n + 1, by rw [nthBase?, hn]; exact hbase⟩
  · rintro ⟨n, hn⟩
    induction n generalizing b with
    | zero => exact .single hn
    | succ n ih =>
      rw [nthBase?] at hn
      obtain ⟨a, ha, hbase⟩ := Option.bind_eq_some_iff.mp hn
      exact .tail (ih ha) hbase

/-- The chain has the bases in their order, as far as it is followed. -/
theorem getElem?_basesWithin (c : Catalog) (steps : Nat) (id : TypeId) (n : Nat) :
    (c.basesWithin steps id)[n]? = if n < steps then c.nthBase? id (n + 1) else none := by
  induction steps generalizing id n with
  | zero => rfl
  | succ steps ih =>
    rw [basesWithin, nthBase?_succ]
    cases hbase : c.base? id with
    | none => simp
    | some base =>
      cases n with
      | zero => simp [nthBase?]
      | succ n => simp [ih]

theorem mem_basesWithin_iff {steps : Nat} :
    b ∈ c.basesWithin steps id ↔ ∃ n < steps, c.nthBase? id (n + 1) = some b := by
  rw [List.mem_iff_getElem?]
  simp [getElem?_basesWithin, ite_eq_iff]

theorem length_basesWithin_le (c : Catalog) (steps : Nat) (id : TypeId) :
    (c.basesWithin steps id).length ≤ steps := by
  refine List.getElem?_eq_none_iff.mp ?_
  rw [getElem?_basesWithin, if_neg (Nat.lt_irrefl steps)]

theorem WellFormed.knows_of_nthBase? (hc : c.WellFormed) {n : Nat}
    (hb : c.nthBase? id (n + 1) = some b) : c.knows b = true := by
  rw [nthBase?] at hb
  obtain ⟨a, -, hbase⟩ := Option.bind_eq_some_iff.mp hb
  exact (hc.knows_of_inherits (.inl hbase)).1

/-- Of more bases than there are types, two are the same. -/
theorem WellFormed.exists_nthBase?_eq (hc : c.WellFormed)
    (hb : c.nthBase? id (c.size + 1) = some b) :
    ∃ m n, m < n ∧ n ≤ c.size ∧ c.nthBase? id (m + 1) = c.nthBase? id (n + 1) := by
  have hmaps : ∀ n ∈ Finset.range (c.size + 1),
      c.nthBase? id (n + 1) ∈ (Finset.range c.size).image fun i => some (TypeId.mk i) := by
    intro n hn
    obtain ⟨a, ha⟩ := exists_nthBase?_of_le (Nat.succ_le_of_lt (Finset.mem_range.mp hn)) hb
    rw [ha]
    exact Finset.mem_image.mpr
      ⟨a.index, Finset.mem_range.mpr (knows_iff.mp (hc.knows_of_nthBase? ha)), rfl⟩
  have hcard : ((Finset.range c.size).image fun i => some (TypeId.mk i)).card <
      (Finset.range (c.size + 1)).card := by
    refine Nat.lt_of_le_of_lt Finset.card_image_le ?_
    simp
  obtain ⟨m, hm, n, hn, hne, heq⟩ := Finset.exists_ne_map_eq_of_card_lt_of_maps_to hcard hmaps
  rw [Finset.mem_range] at hm hn
  rcases Nat.lt_or_gt_of_ne hne with hlt | hgt
  · exact ⟨m, n, hlt, by omega, heq⟩
  · exact ⟨n, m, hgt, by omega, heq.symm⟩

/-- A base that can be reached at all is reached in no more steps than there are types. By
induction on the number of steps: a longer way has come to some type twice, and what lies
between can be left out. -/
theorem WellFormed.exists_nthBase?_lt (hc : c.WellFormed) {n : Nat}
    (hb : c.nthBase? id (n + 1) = some b) : ∃ k < c.size, c.nthBase? id (k + 1) = some b := by
  induction n using Nat.strong_induction_on with
  | _ n ih =>
    rcases Nat.lt_or_ge n c.size with hlt | hge
    · exact ⟨n, hlt, hb⟩
    · obtain ⟨a, ha⟩ := exists_nthBase?_of_le (Nat.succ_le_succ hge) hb
      obtain ⟨i, j, hij, hj, heq⟩ := hc.exists_nthBase?_eq ha
      have hshort := nthBase?_add_congr heq (n - j)
      rw [show j + 1 + (n - j) = n + 1 by omega, hb,
        show i + 1 + (n - j) = i + (n - j) + 1 by omega] at hshort
      exact ih (i + (n - j)) (by omega) hshort

/-- The chain of bases holds all types above, also where bases go round. -/
theorem WellFormed.mem_bases_iff (hc : c.WellFormed) :
    b ∈ c.bases id ↔ TransGen c.BaseOf id b := by
  rw [bases, mem_basesWithin_iff, transGen_baseOf_iff]
  constructor
  · rintro ⟨n, -, hn⟩
    exact ⟨n, hn⟩
  · rintro ⟨n, hn⟩
    exact hc.exists_nthBase?_lt hn

theorem reflTransGen_of_mem_basesWithin {steps : Nat} (hmem : b ∈ c.basesWithin steps id) :
    ReflTransGen c.BaseOf id b := by
  obtain ⟨n, -, hn⟩ := mem_basesWithin_iff.mp hmem
  exact (transGen_baseOf_iff.mpr ⟨n, hn⟩).to_reflTransGen

/-- A base has the definition of something that the definition of the type
declares. -/
theorem WellFormed.declaredUnder_of_base (hc : c.WellFormed) (hfinish : c.finish = .ok h)
    (hbase : h.catalog.BaseOf a b) :
    c.DeclaredUnder (h.catalog.unbound a) (h.catalog.unbound b) := by
  obtain ⟨-, direct, hrun, rfl⟩ := finish_eq_ok_iff.mp hfinish
  obtain ⟨hexpands, hdone⟩ := hc.expands_of_ok hrun
  rw [BaseOf, base?_withInheritedInterfaces] at hbase
  rw [unbound_withInheritedInterfaces, unbound_withInheritedInterfaces]
  exact hexpands.declaredUnder hc (hdone a) (.inl hbase)

/-- A type of a finished catalogue with the bases above it. -/
theorem WellFormed.mem_selfAndBases_iff (hc : c.WellFormed) (hfinish : c.finish = .ok h) :
    a ∈ h.catalog.selfAndBases id ↔ ReflTransGen h.catalog.BaseOf id a := by
  rw [selfAndBases, List.mem_cons, (hc.of_finish hfinish).mem_bases_iff,
    reflTransGen_iff_eq_or_transGen]

/-- Further steps lead no further than the rank of the type. -/
theorem basesWithin_add (rank : TypeId → Nat) (hdown : ∀ x y, c.BaseOf x y → rank y < rank x)
    {steps : Nat} (hsteps : rank id ≤ steps) (extra : Nat) :
    c.basesWithin (steps + extra) id = c.basesWithin steps id := by
  induction steps generalizing id with
  | zero =>
    have hnone : c.base? id = none := by
      refine Option.eq_none_iff_forall_ne_some.mpr fun b hb => ?_
      have hlt := hdown id b hb
      omega
    cases extra <;> simp [basesWithin, hnone]
  | succ steps ih =>
    rw [Nat.add_right_comm, basesWithin, basesWithin]
    cases hbase : c.base? id with
    | none => rfl
    | some b =>
      have hlt := hdown id b hbase
      simp only [ih (show rank b ≤ steps by omega)]

/-- No chain of bases is cut. -/
def Uncut (c : Catalog) : Prop :=
  ∀ id extra, c.basesWithin (c.size + extra) id = c.bases id

theorem WellFormed.uncut (hc : c.WellFormed) (hfinish : c.finish = .ok h) :
    h.catalog.Uncut := by
  obtain ⟨hcycle, -⟩ := finish_eq_ok_iff.mp hfinish
  obtain ⟨rank, hle, hdown⟩ := hc.exists_rank hcycle
  intro id extra
  exact basesWithin_add (fun x => rank (h.catalog.unbound x))
    (fun x y hxy => hdown _ _ (hc.declaredUnder_of_base hfinish hxy))
    (Nat.le_trans (hle _) (hc.preserves_of_finish hfinish).size_le) extra

theorem inherits_of_above (habove : TransGen c.BaseOf a b) : TransGen c.Inherits a b :=
  TransGen.mono (fun _ _ hbase => Or.inl hbase) a b habove

/-- Of two types with one definition neither is above the other. -/
theorem WellFormed.eq_of_above (hc : c.WellFormed) (hfinish : c.finish = .ok h)
    (habove : ReflTransGen h.catalog.BaseOf a b)
    (ha : h.catalog.definition? a = some d) (hb : h.catalog.definition? b = some d) : b = a := by
  rcases reflTransGen_iff_eq_or_transGen.mp habove with heq | habove
  · exact heq
  · have hne := hc.unbound_ne hfinish (inherits_of_above habove)
    rw [unbound, unbound, ha, hb] at hne
    exact absurd rfl hne

/-! ## 2. One ancestor for a class -/

/-- A class definition has at most one application among the ancestors of a
type. -/
theorem WellFormed.ancestor_unique (hc : c.WellFormed) (hfinish : c.finish = .ok h)
    (hclass : h.catalog.kind? d = some .classType)
    (ha : h.catalog.Ancestor id a) (hb : h.catalog.Ancestor id b)
    (hda : h.catalog.definition? a = some d) (hdb : h.catalog.definition? b = some d) : b = a := by
  have hfinished := hc.of_finish hfinish
  have hchain : ∀ {x}, h.catalog.Ancestor id x → h.catalog.definition? x = some d →
      ReflTransGen h.catalog.BaseOf id x := by
    rintro x (habove | hmem) hdx
    · exact habove
    · have hkind := hfinished.kind?_of_mem_interfaces hmem
      rw [← hfinished.kind?_unbound, unbound, hdx, Option.getD_some, hclass] at hkind
      cases hkind
  have hunique : Relator.RightUnique h.catalog.BaseOf := fun x y z hy hz =>
    Option.some.inj (hy.symm.trans hz)
  rcases (hchain ha hda).total_of_right_unique hunique (hchain hb hdb) with hab | hba
  · exact hc.eq_of_above hfinish hab hda hdb
  · exact (hc.eq_of_above hfinish hba hdb hda).symm

/-! ## 3. Looking it up -/

theorem eraseDups_eq_singleton {l : List TypeId} (hmem : a ∈ l) (hall : ∀ x ∈ l, x = a) :
    l.eraseDups = [a] := by
  cases l with
  | nil => cases hmem
  | cons x rest =>
    rw [List.eraseDups_cons, hall x List.mem_cons_self]
    have hnone : (rest.filter fun b => !b == a) = [] := List.filter_eq_nil_iff.mpr fun y hy => by
      rw [hall y (List.mem_cons_of_mem _ hy)]
      simp
    rw [hnone]
    rfl

theorem not_isParameter_of_isDefinition (hd : c.isDefinition d = true) :
    c.isParameter d = false := by
  obtain ⟨params, hform⟩ := isDefinition_iff.mp hd
  refine Bool.eq_false_iff.mpr fun hparam => ?_
  obtain ⟨position, hform'⟩ := isParameter_iff.mp hparam
  cases hform.symm.trans hform'

/-- A look-up answers according to how many distinct ancestors have the shape. -/
theorem ancestor?_cases {shape : TypeId} (hparam : c.isParameter shape = false) (id : TypeId) :
    c.ancestorsOfShape id shape = [] ∧ c.ancestor? id shape = .ok none ∨
    (∃ a, c.ancestorsOfShape id shape = [a] ∧ c.ancestor? id shape = .ok (some a)) ∨
    ∃ a b rest, c.ancestorsOfShape id shape = a :: b :: rest ∧
      c.ancestor? id shape = .error (.ambiguousAncestor id shape (a :: b :: rest)) := by
  rw [ancestor?, hparam, if_neg Bool.false_ne_true]
  rcases c.ancestorsOfShape id shape with _ | ⟨a, _ | ⟨b, rest⟩⟩
  · exact .inl ⟨rfl, rfl⟩
  · exact .inr (.inl ⟨a, rfl, rfl⟩)
  · exact .inr (.inr ⟨a, b, rest, rfl, rfl⟩)

/-- The types that a look-up goes through are the ancestors. -/
theorem WellFormed.mem_ancestors_iff (hc : c.WellFormed) (hfinish : c.finish = .ok h) :
    a ∈ h.catalog.selfAndBases id ++ h.catalog.interfaces id ↔ h.catalog.Ancestor id a := by
  rw [List.mem_append, hc.mem_selfAndBases_iff hfinish, Ancestor]

theorem WellFormed.mem_ancestorsOfShape_iff (hc : c.WellFormed) (hfinish : c.finish = .ok h)
    {shape : TypeId} : a ∈ h.catalog.ancestorsOfShape id shape ↔
      h.catalog.Ancestor id a ∧ h.catalog.hasShape shape a = true := by
  rw [ancestorsOfShape, List.mem_eraseDups, List.mem_filter, hc.mem_ancestors_iff hfinish]

/-- An open definition is looked up to its only application among the
ancestors. -/
theorem WellFormed.ancestor?_of_unique (hc : c.WellFormed) (hfinish : c.finish = .ok h)
    (hd : h.catalog.isDefinition d = true) (ha : h.catalog.Ancestor id a)
    (hda : h.catalog.definition? a = some d)
    (hunique : ∀ x, h.catalog.Ancestor id x → h.catalog.definition? x = some d → x = a) :
    h.catalog.ancestor? id d = .ok (some a) := by
  have hmem : ∀ x, _ ↔ h.catalog.Ancestor id x := fun x => hc.mem_ancestors_iff hfinish
  have hshape : h.catalog.ancestorsOfShape id d = [a] := by
    refine eraseDups_eq_singleton (List.mem_filter.mpr ⟨(hmem a).mpr ha, ?_⟩) fun x hx => ?_
    · simp [hasShape, hd, hda]
    · obtain ⟨hx, hshape⟩ := List.mem_filter.mp hx
      exact hunique x ((hmem x).mp hx) (by simpa [hasShape, hd] using hshape)
  rw [ancestor?, not_isParameter_of_isDefinition hd, hshape]
  rfl

/-- The ancestors with the shape of an open definition are its applications among
the ancestors. -/
theorem WellFormed.mem_ancestorsOfShape (hc : c.WellFormed) (hfinish : c.finish = .ok h)
    (hd : h.catalog.isDefinition d = true) :
    a ∈ h.catalog.ancestorsOfShape id d ↔
      h.catalog.Ancestor id a ∧ h.catalog.definition? a = some d := by
  rw [hc.mem_ancestorsOfShape_iff hfinish, hasShape, if_pos hd, beq_iff_eq]

/-- Looking an open definition up finds the only ancestor of its shape, if there is
exactly one. -/
theorem WellFormed.ancestor?_eq_some_iff (hc : c.WellFormed) (hfinish : c.finish = .ok h)
    (hd : h.catalog.isDefinition d = true) :
    h.catalog.ancestor? id d = .ok (some a) ↔
      h.catalog.Ancestor id a ∧ h.catalog.definition? a = some d ∧
        ∀ x, h.catalog.Ancestor id x → h.catalog.definition? x = some d → x = a := by
  constructor
  · intro hlookup
    have hmem : ∀ {x}, x ∈ h.catalog.ancestorsOfShape id d ↔ _ :=
      fun {x} => hc.mem_ancestorsOfShape hfinish hd
    rcases ancestor?_cases (not_isParameter_of_isDefinition hd) id with
      ⟨-, hanswer⟩ | ⟨single, hsingle, hanswer⟩ | ⟨_, _, _, -, hanswer⟩
    · cases hanswer.symm.trans hlookup
    · cases hanswer.symm.trans hlookup
      simp only [hsingle, List.mem_singleton] at hmem
      obtain ⟨ha, hda⟩ := hmem.mp rfl
      exact ⟨ha, hda, fun x hx hdx => hmem.mpr ⟨hx, hdx⟩⟩
    · cases hanswer.symm.trans hlookup
  · rintro ⟨ha, hda, hunique⟩
    exact hc.ancestor?_of_unique hfinish hd ha hda hunique

/-- It finds nothing if no ancestor has the shape. -/
theorem WellFormed.ancestor?_eq_none_iff (hc : c.WellFormed) (hfinish : c.finish = .ok h)
    (hd : h.catalog.isDefinition d = true) :
    h.catalog.ancestor? id d = .ok none ↔
      ∀ x, h.catalog.Ancestor id x → h.catalog.definition? x ≠ some d := by
  have hnil : h.catalog.ancestor? id d = .ok none ↔ h.catalog.ancestorsOfShape id d = [] := by
    rcases ancestor?_cases (not_isParameter_of_isDefinition hd) id with
      ⟨hlist, hanswer⟩ | ⟨_, hlist, hanswer⟩ | ⟨_, _, _, hlist, hanswer⟩ <;> simp [hlist, hanswer]
  rw [hnil, List.eq_nil_iff_forall_not_mem]
  simp only [hc.mem_ancestorsOfShape hfinish hd, not_and, ne_eq]

/-- It fails, with all of them, if several have the shape. -/
theorem ancestor?_eq_error_iff (hd : c.isDefinition d = true) {e : LookupError} :
    c.ancestor? id d = .error e ↔
      2 ≤ (c.ancestorsOfShape id d).length ∧
        e = .ambiguousAncestor id d (c.ancestorsOfShape id d) := by
  rcases ancestor?_cases (not_isParameter_of_isDefinition hd) id with
    ⟨hlist, hanswer⟩ | ⟨_, hlist, hanswer⟩ | ⟨_, _, _, hlist, hanswer⟩
  · simp [hlist, hanswer]
  · simp [hlist, hanswer]
  · simp [hlist, hanswer, eq_comm]

/-! ## 4. Nearest common bases -/

/-- `b` is the nearest type that every type of `S` is or has as a base: it is one,
and all others are its bases. -/
structure NearestCommonBase (c : Catalog) (S : TypeId → Prop) (b : TypeId) : Prop where
  common : ∀ id, S id → b ∈ c.selfAndBases id
  nearest : ∀ x, (∀ id, S id → x ∈ c.selfAndBases id) → x ∈ c.selfAndBases b

/-- Types that are each in the chain of bases of the other are equal. -/
theorem WellFormed.eq_of_mem_selfAndBases (hc : c.WellFormed) (hfinish : c.finish = .ok h)
    (hab : a ∈ h.catalog.selfAndBases b) (hba : b ∈ h.catalog.selfAndBases a) : a = b := by
  rw [hc.mem_selfAndBases_iff hfinish] at hab hba
  rcases reflTransGen_iff_eq_or_transGen.mp hab with heq | habove
  · exact heq
  · have hround := inherits_of_above (habove.trans_left hba)
    exact absurd hround (hc.not_inherits_itself hfinish b)

/-- There is one nearest common base at most. -/
theorem WellFormed.nearestCommonBase_unique (hc : c.WellFormed) (hfinish : c.finish = .ok h)
    {S : TypeId → Prop} (ha : h.catalog.NearestCommonBase S a)
    (hb : h.catalog.NearestCommonBase S b) : a = b :=
  hc.eq_of_mem_selfAndBases hfinish (hb.nearest a ha.common) (ha.nearest b hb.common)

/-- What comes later in a chain of bases stands above what comes first. -/
theorem above_of_find? {p : TypeId → Bool} {steps : Nat} {x : TypeId}
    (hfind : (id :: c.basesWithin steps id).find? p = some b)
    (hx : x ∈ id :: c.basesWithin steps id) (hp : p x = true) : ReflTransGen c.BaseOf b x := by
  induction steps generalizing id with
  | zero =>
    simp only [basesWithin, List.mem_singleton] at hx
    subst hx
    simp [basesWithin, hp] at hfind
    exact hfind ▸ .refl
  | succ steps ih =>
    by_cases hid : p id = true
    · rw [List.find?_cons_of_pos hid] at hfind
      cases hfind
      rcases List.mem_cons.mp hx with rfl | hx
      · exact .refl
      · exact reflTransGen_of_mem_basesWithin hx
    · rw [List.find?_cons_of_neg hid] at hfind
      rcases List.mem_cons.mp hx with rfl | hx
      · exact absurd hp hid
      · rw [basesWithin] at hfind hx
        split at hx
        · cases hx
        · rename_i base hbase
          rw [hbase] at hfind
          exact ih hfind hx

/-- The first type of one chain that is in all others is the nearest common base. -/
theorem WellFormed.nearestCommonBase?_some (hc : c.WellFormed) (hfinish : c.finish = .ok h)
    {ids : List TypeId} (hfound : h.catalog.nearestCommonBase? ids = some b) :
    h.catalog.NearestCommonBase (· ∈ ids) b := by
  cases ids with
  | nil => cases hfound
  | cons first rest =>
    rw [nearestCommonBase?_cons] at hfound
    have hall := List.find?_some hfound
    simp only [List.all_eq_true, List.contains_iff_mem] at hall
    refine ⟨fun id hid => ?_, fun x hx => ?_⟩
    · rcases List.mem_cons.mp hid with rfl | hid
      · exact List.mem_of_find?_eq_some hfound
      · exact hall id hid
    · rw [hc.mem_selfAndBases_iff hfinish]
      refine above_of_find? hfound (hx first List.mem_cons_self) ?_
      simp only [List.all_eq_true, List.contains_iff_mem]
      exact fun id hid => hx id (List.mem_cons_of_mem _ hid)

/-- If none is found there is none. -/
theorem nearestCommonBase?_none {ids : List TypeId} (hne : ids ≠ [])
    (hnone : c.nearestCommonBase? ids = none) : ¬ ∃ x, ∀ id ∈ ids, x ∈ c.selfAndBases id := by
  rintro ⟨x, hx⟩
  cases ids with
  | nil => exact hne rfl
  | cons first rest =>
    rw [nearestCommonBase?_cons] at hnone
    refine List.find?_eq_none.mp hnone x (hx first List.mem_cons_self) ?_
    simp only [List.all_eq_true, List.contains_iff_mem]
    exact fun id hid => hx id (List.mem_cons_of_mem _ hid)

end

end Generics.Catalog

/-
Generics.Proofs.Occurrence — paths into a type and into what it becomes.

The paths to a target by recursion on arguments (`pathsTo`) are the ways down
through arguments that end there (`mem_pathsTo_iff`), and there is one if the
target is mentioned at all (`exists_path_iff`). Types put in place of leaves do not
disturb a path: walked in the type that results, the path to a leaf ends at what
was put there (`descend_replaced`).

The search for occurrences does not recur. It works off a stack, and a type on top of
the stack is worked off by finding the target at the paths that the recursion gives for
it (`WellFormed.halts_search_cons`). So the search halts, with those paths
(`WellFormed.occurrences_eq`).
-/
import Mathlib.Logic.Relation
import Generics.Occurrence
import Generics.Proofs.Catalog.WellFormed

namespace Generics.Catalog

open Relation TypeTree

/-- The type `target` is `id` or stands among its arguments, at any depth. -/
def Mentions (c : Catalog) (id target : TypeId) : Prop :=
  ReflTransGen (fun a b => b ∈ c.args a) id target

mutual

/-- The paths from a type to a target, from left to right. At the target itself
there is no deeper one. -/
def pathsTo (c : Catalog) (target id : TypeId) : List (List Nat) :=
  if id = target then [[]] else c.pathsToAmong target id 0 (c.args id)
termination_by (id.index, 1, 0)

/-- The paths that begin with one of the arguments of a type, of which those
from number `index` on are given. An argument that is not older than the type is
a parameter of an open definition, so nothing lies below it. -/
def pathsToAmong (c : Catalog) (target id : TypeId) (index : Nat) :
    List TypeId → List (List Nat)
  | [] => []
  | a :: rest =>
    if a.index < id.index then
      (c.pathsTo target a).map (index :: ·) ++ c.pathsToAmong target id (index + 1) rest
    else if a = target then [index] :: c.pathsToAmong target id (index + 1) rest
    else c.pathsToAmong target id (index + 1) rest
termination_by args => (id.index, 0, args.length)

end

section

variable {c : Catalog} {id root target : TypeId} {path : List Nat}

/-! ## 1. Paths -/

/-- A path that begins with one of the given arguments. -/
theorem mem_pathsToAmong {args : List TypeId} {index : Nat} :
    path ∈ c.pathsToAmong target id index args ↔
      ∃ i a rest, args[i]? = some a ∧ path = (index + i) :: rest ∧
        (a.index < id.index ∧ rest ∈ c.pathsTo target a ∨
          ¬ a.index < id.index ∧ a = target ∧ rest = []) := by
  induction args generalizing index with
  | nil => simp [pathsToAmong]
  | cons b bs ih =>
    have hsplit : path ∈ c.pathsToAmong target id index (b :: bs) ↔
        (∃ rest, path = index :: rest ∧ (b.index < id.index ∧ rest ∈ c.pathsTo target b ∨
          ¬ b.index < id.index ∧ b = target ∧ rest = [])) ∨
        path ∈ c.pathsToAmong target id (index + 1) bs := by
      rw [pathsToAmong]
      split
      · rename_i hlt
        simp only [List.mem_append, List.mem_map, hlt, not_true_eq_false, true_and, false_and,
          or_false, eq_comm, and_comm]
      · rename_i hge
        split
        · rename_i heq
          subst heq
          simp [hge]
        · rename_i hne
          simp [hge, hne]
    rw [hsplit, ih]
    constructor
    · rintro (⟨rest, rfl, hrest⟩ | ⟨i, a, rest, ha, rfl, hrest⟩)
      · exact ⟨0, b, rest, rfl, rfl, hrest⟩
      · exact ⟨i + 1, a, rest, ha, by rw [Nat.add_right_comm, Nat.add_assoc], hrest⟩
    · rintro ⟨i, a, rest, ha, rfl, hrest⟩
      cases i with
      | zero =>
        cases ha
        exact .inl ⟨rest, rfl, hrest⟩
      | succ i => exact .inr ⟨i, a, rest, ha, by rw [Nat.add_right_comm, Nat.add_assoc], hrest⟩

theorem pathsTo_of_args_nil (h : c.args id = []) :
    path ∈ c.pathsTo target id ↔ id = target ∧ path = [] := by
  rw [pathsTo, h, pathsToAmong]
  split <;> simp_all

/-- A path stands at the target or enters an argument and goes on from there. -/
theorem WellFormed.mem_pathsTo_iff (hc : c.WellFormed) :
    path ∈ c.pathsTo target id ↔ id = target ∧ path = [] ∨
      id ≠ target ∧ ∃ i a rest, (c.args id)[i]? = some a ∧ path = i :: rest ∧
        rest ∈ c.pathsTo target a := by
  rw [pathsTo]
  split
  · rename_i heq
    simp [heq]
  · rename_i hne
    simp only [hne, false_and, false_or, ne_eq, not_false_eq_true, true_and, mem_pathsToAmong,
      Nat.zero_add]
    refine exists_congr fun i => exists_congr fun a => exists_congr fun rest => ?_
    refine and_congr_right fun ha => and_congr_right fun _ => ?_
    by_cases hlt : a.index < id.index
    · simp [hlt]
    · have hargs := hc.args_of_not_older (List.mem_of_getElem? ha) hlt
      simp [hlt, pathsTo_of_args_nil hargs]

/-- There is a path exactly to what is mentioned. -/
theorem WellFormed.exists_path_iff (hc : c.WellFormed) :
    (∃ path, path ∈ c.pathsTo target id) ↔ c.Mentions id target := by
  constructor
  · rintro ⟨path, hpath⟩
    induction path generalizing id with
    | nil =>
      rcases hc.mem_pathsTo_iff.mp hpath with ⟨rfl, -⟩ | ⟨-, _, _, _, _, hcons, _⟩
      · exact .refl
      · cases hcons
    | cons index path ih =>
      rcases hc.mem_pathsTo_iff.mp hpath with ⟨-, hnil⟩ | ⟨-, i, a, rest, ha, hcons, hrest⟩
      · cases hnil
      · cases hcons
        exact .head (List.mem_of_getElem? ha) (ih hrest)
  · intro h
    induction h using ReflTransGen.head_induction_on with
    | refl => exact ⟨[], hc.mem_pathsTo_iff.mpr (.inl ⟨rfl, rfl⟩)⟩
    | @head b a ha _ ih =>
      obtain ⟨rest, hrest⟩ := ih
      by_cases heq : b = target
      · exact ⟨[], hc.mem_pathsTo_iff.mpr (.inl ⟨heq, rfl⟩)⟩
      · obtain ⟨i, hi⟩ := List.getElem?_of_mem ha
        exact ⟨i :: rest, hc.mem_pathsTo_iff.mpr (.inr ⟨heq, i, a, rest, hi, rfl, hrest⟩)⟩

/-! ## 2. Walking down -/

theorem descend_of_arg {steps i : Nat} {a : TypeId} {rest : List Nat}
    (ha : (c.args id)[i]? = some a) :
    c.descend id steps (i :: rest) = c.descend a (steps + 1) rest := by
  rw [descend]
  split
  · rename_i hnil
    rw [hnil] at ha
    cases ha
  · rw [ha]

/-- A type with leaves replaced has, at each place of the first, what has become
of that. -/
theorem WellFormed.arg_of_replaced (hc : c.WellFormed) {σ : TypeId → TypeTree} {r a : TypeId}
    {i : Nat} (htree : c.tree r = (c.tree id).replace σ) (ha : (c.args id)[i]? = some a) :
    ∃ b, (c.args r)[i]? = some b ∧ c.tree b = (c.tree a).replace σ := by
  cases hdef : c.definition? id with
  | none =>
    rw [args_of_definition?_none hdef] at ha
    cases ha
  | some d =>
    rw [hc.tree_of_definition? hdef, replace_apply, List.map_map] at htree
    obtain ⟨-, hargs⟩ := hc.definition?_of_tree htree
    have hat := congrArg (fun l => l[i]?) hargs
    simp only [List.getElem?_map, ha, Option.map_some] at hat
    obtain ⟨b, hb, hbtree⟩ := Option.map_eq_some_iff.mp hat
    exact ⟨b, hb, hbtree⟩

/-- The path to a leaf leads, in a type with leaves replaced, to what was put
there. -/
theorem WellFormed.descend_replaced (hc : c.WellFormed) {σ : TypeId → TypeTree} {r s : TypeId}
    {steps : Nat} (htarget : c.definition? target = none) (hs : σ target = c.tree s)
    (htree : c.tree r = (c.tree id).replace σ) (hpath : path ∈ c.pathsTo target id) :
    c.descend r steps path = .ok s := by
  induction path generalizing id r steps with
  | nil =>
    rcases hc.mem_pathsTo_iff.mp hpath with ⟨rfl, -⟩ | ⟨-, _, _, _, _, hcons, _⟩
    · rw [tree_of_definition?_none htarget, replace_leaf, hs] at htree
      rw [descend, hc.tree_injective htree]
    · cases hcons
  | cons index path ih =>
    rcases hc.mem_pathsTo_iff.mp hpath with ⟨-, hnil⟩ | ⟨-, i, a, rest, ha, hcons, hrest⟩
    · cases hnil
    · cases hcons
      obtain ⟨b, hb, hbtree⟩ := hc.arg_of_replaced htree ha
      rw [descend_of_arg hb]
      exact ih hbtree hrest

/-! ## 3. The list of paths -/

/-- The paths to a target one argument after the other. The recursion does not go
below arguments that are not older, but nothing lies there. -/
theorem WellFormed.pathsTo_eq (hc : c.WellFormed) (target id : TypeId) :
    c.pathsTo target id = if id = target then [[]] else
      (c.args id).zipIdx.flatMap fun (a, i) => (c.pathsTo target a).map (i :: ·) := by
  have hamong : ∀ (args : List TypeId) (index : Nat), (∀ a ∈ args, a ∈ c.args id) →
      c.pathsToAmong target id index args =
        (args.zipIdx index).flatMap fun (a, i) => (c.pathsTo target a).map (i :: ·) := by
    intro args
    induction args with
    | nil => intro index _; simp [pathsToAmong]
    | cons a rest ih =>
      intro index hmem
      have hrest := ih (index + 1) fun b hb => hmem b (List.mem_cons_of_mem _ hb)
      simp only [pathsToAmong, List.zipIdx_cons, List.flatMap_cons, hrest]
      by_cases holder : a.index < id.index
      · rw [if_pos holder]
      · have hnone := hc.args_of_not_older (hmem a List.mem_cons_self) holder
        have hpaths : c.pathsTo target a = if a = target then [[]] else [] := by
          rw [pathsTo, hnone, pathsToAmong]
        rw [if_neg holder, hpaths]
        by_cases heq : a = target <;> simp [heq]
  rw [pathsTo, hamong (c.args id) 0 fun _ ha => ha]

theorem pairwise_zipIdx {α : Type} (l : List α) : l.zipIdx.Pairwise fun x y => x.2 < y.2 := by
  rw [← List.pairwise_map (f := Prod.snd), List.zipIdx_map_snd]
  exact List.pairwise_lt_range'

/-- Paths come out from left to right: they increase in the order of sequences. -/
theorem WellFormed.pairwise_pathsTo (hc : c.WellFormed) (target id : TypeId) :
    (c.pathsTo target id).Pairwise (· < ·) := by
  induction id using hc.args_induction with
  | step id ih =>
    rw [hc.pathsTo_eq]
    split
    · exact List.pairwise_singleton _ _
    · refine List.pairwise_flatMap.mpr ⟨?_, ?_⟩
      · rintro ⟨a, i⟩ hmem
        have ha := List.mem_of_getElem? (List.mem_zipIdx_iff_getElem?.mp hmem)
        exact (ih a ha).map _ fun x y hxy => List.cons_lt_cons_iff.mpr (.inr ⟨rfl, hxy⟩)
      · refine (pairwise_zipIdx (c.args id)).imp fun {x y} hlt p hp q hq => ?_
        obtain ⟨p', -, rfl⟩ := List.mem_map.mp hp
        obtain ⟨q', -, rfl⟩ := List.mem_map.mp hq
        exact List.cons_lt_cons_iff.mpr (.inl hlt)

/-- `Leads id path target`: entering the arguments with these indices, one after the
other, leads from `id` to `target`. -/
inductive Leads (c : Catalog) : TypeId → List Nat → TypeId → Prop
  | here (id : TypeId) : Leads c id [] id
  | into {id a target : TypeId} {index : Nat} {rest : List Nat}
      (ha : (c.args id)[index]? = some a) (h : Leads c a rest target) :
      Leads c id (index :: rest) target

/-- A path leads to an older type, or to one without arguments. -/
theorem WellFormed.le_of_leads (hc : c.WellFormed) (h : c.Leads id path target) :
    target.index ≤ id.index ∨ c.args target = [] := by
  induction h with
  | here id => exact .inl (Nat.le_refl _)
  | @into id a target index rest ha h ih =>
    rcases ih with hle | hnone
    · by_cases holder : a.index < id.index
      · exact .inl (by omega)
      · have hargs := hc.args_of_not_older (List.mem_of_getElem? ha) holder
        cases h with
        | here => exact .inr hargs
        | into ha' _ => rw [hargs] at ha'; cases ha'
    · exact .inr hnone

/-- No type lies below itself. -/
theorem WellFormed.not_leads_self (hc : c.WellFormed) {index : Nat} {rest : List Nat} :
    ¬ c.Leads id (index :: rest) id := by
  intro h
  cases h with
  | @into _ a _ _ _ ha h =>
    have hmem := List.mem_of_getElem? ha
    rcases hc.le_of_leads h with hle | hnone
    · have hargs := hc.args_of_not_older hmem (by omega)
      cases h with
      | here => rw [hargs] at hmem; cases hmem
      | into ha' _ => rw [hargs] at ha'; cases ha'
    · rw [hnone] at hmem
      cases hmem

/-- The paths found are those that lead to the target. -/
theorem WellFormed.mem_pathsTo_iff_leads (hc : c.WellFormed) :
    path ∈ c.pathsTo target id ↔ c.Leads id path target := by
  induction path generalizing id with
  | nil =>
    rw [hc.mem_pathsTo_iff]
    constructor
    · rintro (⟨rfl, -⟩ | ⟨-, _, _, _, _, hcons, _⟩)
      · exact .here id
      · cases hcons
    · intro h
      cases h
      exact .inl ⟨rfl, rfl⟩
  | cons index path ih =>
    rw [hc.mem_pathsTo_iff]
    constructor
    · rintro (⟨-, hnil⟩ | ⟨-, i, a, rest, ha, hcons, hrest⟩)
      · cases hnil
      · cases hcons
        exact .into ha (ih.mp hrest)
    · intro h
      refine .inr ⟨?_, ?_⟩
      · rintro rfl
        exact hc.not_leads_self h
      · cases h with
        | into ha h => exact ⟨index, _, path, ha, rfl, ih.mpr h⟩

/-- Walking down a path that leads somewhere ends there. -/
theorem descend_eq_ok_iff {steps : Nat} :
    c.descend id steps path = .ok target ↔ c.Leads id path target := by
  induction path generalizing id steps with
  | nil =>
    rw [descend, Except.ok.injEq]
    constructor
    · rintro rfl; exact .here id
    · intro h; cases h; rfl
  | cons index path ih =>
    rw [descend]
    constructor
    · intro h
      split at h
      · cases h
      · split at h
        · cases h
        · rename_i next hnext
          exact .into hnext (ih.mp h)
    · intro h
      cases h with
      | into ha h =>
        split
        · rename_i hnil
          rw [hnil] at ha
          cases ha
        · rw [ha]
          exact ih.mpr h

/-- Walking down fails at the first type on the way that has no argument with the
index asked for; whether it has any arguments makes the difference between the two
errors. -/
theorem descend_eq_error_iff {steps : Nat} {e : LookupError} :
    c.descend id steps path = .error e ↔
      ∃ before index after type, path = before ++ index :: after ∧ c.Leads id before type ∧
        (c.args type = [] ∧ e = .notGeneric type (steps + before.length) ∨
          c.args type ≠ [] ∧ (c.args type).length ≤ index ∧ e = .noSuchArgument type index) := by
  induction path generalizing id steps with
  | nil => simp [descend]
  | cons index path ih =>
    constructor
    · intro h
      rw [descend] at h
      split at h
      · rename_i hnone
        exact ⟨[], index, path, id, rfl, .here id, .inl ⟨hnone, (Except.error.inj h).symm⟩⟩
      · rename_i hsome
        split at h
        · rename_i hat
          exact ⟨[], index, path, id, rfl, .here id,
            .inr ⟨hsome, List.getElem?_eq_none_iff.mp hat, (Except.error.inj h).symm⟩⟩
        · rename_i next hnext
          obtain ⟨before, i, after, type, rfl, hleads, hcase⟩ := ih.mp h
          refine ⟨index :: before, i, after, type, rfl, .into hnext hleads, ?_⟩
          rwa [List.length_cons, Nat.add_comm before.length, ← Nat.add_assoc]
    · rintro ⟨before, i, after, type, hpath, hleads, hcase⟩
      cases hleads with
      | here =>
        cases hpath
        rw [descend]
        rcases hcase with ⟨hnone, rfl⟩ | ⟨hsome, hlength, rfl⟩
        · rw [hnone]
          rfl
        · split
          · contradiction
          · rw [List.getElem?_eq_none hlength]
      | @into _ a _ j before' ha hleads =>
        cases hpath
        rw [descend_of_arg ha]
        refine ih.mpr ⟨before', i, after, type, rfl, hleads, ?_⟩
        rwa [List.length_cons, Nat.add_comm before'.length, ← Nat.add_assoc] at hcase

/-! ## 4. The search -/

/-- The arguments come to lie on the stack from left to right. -/
theorem pushArguments_eq (args : List TypeId) (path : List Nat)
    (stack : List (TypeId × List Nat)) :
    pushArguments args path stack =
      args.zipIdx.map (fun x => (x.1, path ++ [x.2])) ++ stack := by
  unfold pushArguments
  rw [List.foldl_reverse]
  induction args.zipIdx with
  | nil => rfl
  | cons x rest ih => rw [List.foldr_cons, ih, List.map_cons, List.cons_append]

@[simp]
theorem searchOccurrences_nil (c : Catalog) (root target : TypeId) (found : Array Occurrence) :
    c.searchOccurrences root target [] found = found :=
  loop_of_inr rfl

theorem searchTurn_target (c : Catalog) (root target : TypeId) (path : List Nat)
    (rest : List (TypeId × List Nat)) (found : Array Occurrence) :
    c.searchTurn root target ((target, path) :: rest, found) =
      .inl (rest, found.push ⟨root, path⟩) :=
  if_pos rfl

theorem searchTurn_of_ne (hne : id ≠ target) (rest : List (TypeId × List Nat))
    (found : Array Occurrence) :
    c.searchTurn root target ((id, path) :: rest, found) =
      .inl (pushArguments (c.args id) path rest, found) :=
  if_neg hne

@[simp]
theorem searchOccurrences_cons (c : Catalog) (root target id : TypeId) (path : List Nat)
    (rest : List (TypeId × List Nat)) (found : Array Occurrence) :
    c.searchOccurrences root target ((id, path) :: rest) found =
      if id = target then c.searchOccurrences root target rest (found.push ⟨root, path⟩)
      else c.searchOccurrences root target (pushArguments (c.args id) path rest) found := by
  split
  · rename_i heq
    subst heq
    exact loop_of_inl (c.searchTurn_target root id path rest found)
  · rename_i hne
    exact loop_of_inl (searchTurn_of_ne hne rest found)

/-- A search that has a type on top of the stack finds the target at the paths of that
type before it goes on. The induction is along arguments: those that are put on the
stack in the place of a type are worked off one after the other. -/
theorem WellFormed.halts_search_cons (hc : c.WellFormed) (id : TypeId) (path : List Nat)
    {rest : List (TypeId × List Nat)} {found answer : Array Occurrence}
    (h : Halts (c.searchTurn root target)
      (rest, found ++ ((c.pathsTo target id).map fun p => ⟨root, path ++ p⟩).toArray) answer) :
    Halts (c.searchTurn root target) ((id, path) :: rest, found) answer := by
  induction id using hc.args_induction generalizing path rest found with
  | step id ih =>
    rw [hc.pathsTo_eq] at h
    by_cases heq : id = target
    · subst heq
      refine .next (c.searchTurn_target root id path rest found) ?_
      simpa using h
    rw [if_neg heq] at h
    refine .next (searchTurn_of_ne heq rest found) ?_
    rw [pushArguments_eq]
    have hall : ∀ (l : List (TypeId × Nat)) (found : Array Occurrence),
        (∀ x ∈ l, x.1 ∈ c.args id) →
        Halts (c.searchTurn root target)
          (rest, found ++ ((l.flatMap fun x => (c.pathsTo target x.1).map (x.2 :: ·)).map
            fun p => ⟨root, path ++ p⟩).toArray) answer →
        Halts (c.searchTurn root target)
          (l.map (fun x => (x.1, path ++ [x.2])) ++ rest, found) answer := by
      intro l
      induction l with
      | nil => exact fun found _ hrest => by simpa using hrest
      | cons x l ihl =>
        intro found hmem hrest
        refine ih x.1 (hmem x List.mem_cons_self) (path ++ [x.2])
          (ihl _ (fun y hy => hmem y (List.mem_cons_of_mem _ hy)) ?_)
        simpa [List.flatMap_cons, Function.comp_def] using hrest
    refine hall _ found (fun x hx => ?_) h
    exact List.mem_of_getElem? (List.mem_zipIdx_iff_getElem?.mp hx)

/-- A search that begins at the root finds the paths that recursion on arguments gives. -/
theorem WellFormed.halts_search_root (hc : c.WellFormed) (root target : TypeId)
    (found : Array Occurrence) :
    Halts (c.searchTurn root target) ([(root, [])], found)
      (found ++ ((c.pathsTo target root).map (Occurrence.mk root)).toArray) :=
  hc.halts_search_cons root [] (.last rfl)

theorem WellFormed.occurrences_eq (hc : c.WellFormed) (root target : TypeId) :
    c.occurrences root target = (c.pathsTo target root).map (Occurrence.mk root) := by
  unfold occurrences
  split
  · rename_i heq
    rw [hc.pathsTo_eq, if_pos heq, heq]
    rfl
  · rw [searchOccurrences, (hc.halts_search_root root target #[]).loop_eq]
    simp

/-- The search halts, and adds the occurrences to what it had found. -/
theorem WellFormed.halts_search (hc : c.WellFormed) (root target : TypeId)
    (found : Array Occurrence) :
    Halts (c.searchTurn root target) ([(root, [])], found)
      (found ++ (c.occurrences root target).toArray) := by
  rw [hc.occurrences_eq]
  exact hc.halts_search_root root target found

/-! ## 5. Occurrences in parameter types -/

/-- The place of an occurrence: which parameter, then the path into its type. -/
def place (o : ParameterOccurrence) : List Nat :=
  o.parameter :: o.occurrence.indices

/-- The occurrences in a list of parameter types, by recursion on arguments. -/
theorem WellFormed.parameterOccurrences_eq (hc : c.WellFormed) (params : List TypeId)
    (target : TypeId) :
    c.parameterOccurrences params target = params.zipIdx.flatMap fun x =>
      (c.pathsTo target x.1).map fun indices => ⟨x.2, x.1, indices⟩ := by
  simp only [parameterOccurrences, hc.occurrences_eq, List.map_map, Function.comp_def]

theorem WellFormed.mem_parameterOccurrences (hc : c.WellFormed) {params : List TypeId}
    {o : ParameterOccurrence} :
    o ∈ c.parameterOccurrences params target ↔
      ∃ i param path, params[i]? = some param ∧ path ∈ c.pathsTo target param ∧
        o = ⟨i, param, path⟩ := by
  rw [hc.parameterOccurrences_eq]
  simp only [List.mem_flatMap, List.mem_map, Prod.exists, List.mem_zipIdx_iff_getElem?]
  constructor
  · rintro ⟨param, i, hi, path, hpath, rfl⟩
    exact ⟨i, param, path, hi, hpath, rfl⟩
  · rintro ⟨i, param, path, hi, hpath, rfl⟩
    exact ⟨param, i, hi, path, hpath, rfl⟩

/-- The occurrences in a list of parameter types are in the order of their places. -/
theorem WellFormed.pairwise_parameterOccurrences (hc : c.WellFormed) (params : List TypeId)
    (target : TypeId) :
    (c.parameterOccurrences params target).Pairwise fun o o' => place o < place o' := by
  rw [hc.parameterOccurrences_eq]
  refine List.pairwise_flatMap.mpr ⟨?_, ?_⟩
  · rintro ⟨param, i⟩ -
    simp only [List.pairwise_map]
    exact (hc.pairwise_pathsTo target param).imp fun hlt =>
      List.cons_lt_cons_iff.mpr (.inr ⟨rfl, hlt⟩)
  · refine (pairwise_zipIdx params).imp fun {x y} hlt o ho o' ho' => ?_
    obtain ⟨_, -, rfl⟩ := List.mem_map.mp ho
    obtain ⟨_, -, rfl⟩ := List.mem_map.mp ho'
    exact List.cons_lt_cons_iff.mpr (.inl hlt)

end

end Generics.Catalog

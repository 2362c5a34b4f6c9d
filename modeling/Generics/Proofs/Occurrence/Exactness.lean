/-
Generics.Proofs.Occurrence.Exactness — the search for occurrences finds each of them
once, in order.

An occurrence is a way down through arguments. The search works off a stack of types, the
first argument on top, and where it meets its target it does not look below. Nothing is lost
by that: a type does not occur inside itself (`not_leads_self`). So the loop halts, and what
it has found by then solves the equation that describes the paths to a target one argument
after the other. In a catalogue that equation has one solution
(`WellFormed.listsPaths_iff`).
-/
import Generics.Proofs.Hierarchy.DirectLinks
import Generics.Proofs.Occurrence

namespace Generics.Catalog

/-- `paths` are the paths to `target` by recursion on arguments: at the target itself there
is the empty path, anywhere else the paths of the first argument, then those of the second
and so on, each with the index of its argument in front. -/
def ListsPaths (c : Catalog) (target : TypeId) (paths : TypeId → List (List Nat)) : Prop :=
  ∀ id, paths id = if id = target then [[]] else
    (c.args id).zipIdx.flatMap fun x => (paths x.1).map (x.2 :: ·)

/-- The search for occurrences is exact: its loop halts, every way that leads to the target
is found from the root that was asked about, each once and from left to right, and it is what
the recursion on arguments gives. For several parameter types the occurrences are those in
the first, then those in the second and so on, each beside the index of its parameter. -/
structure SearchesExactly (c : Catalog) : Prop where
  /-- The loop halts, and adds the occurrences to what it had found before. -/
  halts : ∀ root target found, Halts (c.searchTurn root target) ([(root, [])], found)
    (found ++ (c.occurrences root target).toArray)
  leads : ∀ root target o,
    o ∈ c.occurrences root target ↔ o.root = root ∧ c.Leads root o.indices target
  once : ∀ root target, (c.occurrences root target).Nodup
  increasing : ∀ root target,
    (c.occurrences root target).Pairwise fun o o' => o.indices < o'.indices
  recursive : ∀ target paths, c.ListsPaths target paths ↔
    ∀ id, paths id = (c.occurrences id target).map Occurrence.indices
  positioned : ∀ params target, c.parameterOccurrences params target =
    (params.mapIdx fun i root => (c.occurrences root target).map fun o => ⟨i, o⟩).flatten

section

variable {c : Catalog} {root target : TypeId} {paths : TypeId → List (List Nat)}

/-! ## 1. One root -/

theorem WellFormed.indices_occurrences (hc : c.WellFormed) (root target : TypeId) :
    (c.occurrences root target).map Occurrence.indices = c.pathsTo target root := by
  simp [hc.occurrences_eq, Function.comp_def]

theorem WellFormed.mem_occurrences_iff (hc : c.WellFormed) {o : Occurrence} :
    o ∈ c.occurrences root target ↔ o.root = root ∧ c.Leads root o.indices target := by
  rw [hc.occurrences_eq, List.mem_map]
  constructor
  · rintro ⟨path, hpath, rfl⟩
    exact ⟨rfl, hc.mem_pathsTo_iff_leads.mp hpath⟩
  · rintro ⟨rfl, hleads⟩
    exact ⟨o.indices, hc.mem_pathsTo_iff_leads.mpr hleads, rfl⟩

theorem WellFormed.pairwise_occurrences (hc : c.WellFormed) (root target : TypeId) :
    (c.occurrences root target).Pairwise fun o o' => o.indices < o'.indices := by
  have hpaths := hc.pairwise_pathsTo target root
  rwa [← hc.indices_occurrences, List.pairwise_map] at hpaths

/-- The recursion on arguments has one solution. Arguments are older than what they are
arguments of, or have none themselves, so equal paths of the arguments make equal paths. -/
theorem WellFormed.listsPaths_iff (hc : c.WellFormed) :
    c.ListsPaths target paths ↔ ∀ id, paths id = c.pathsTo target id := by
  constructor
  · intro hpaths id
    induction id using hc.args_induction with
    | step id ih =>
      rw [hpaths id, hc.pathsTo_eq target id]
      congr 1
      refine List.flatMap_congr fun x hx => ?_
      have harg := List.mem_of_getElem? (List.mem_zipIdx_iff_getElem?.mp hx)
      rw [ih x.1 harg]
  · intro hsame id
    rw [hsame id, hc.pathsTo_eq target id]
    simp only [hsame]

/-! ## 2. Several parameter types -/

theorem parameterOccurrences_eq_flatten (c : Catalog) (params : List TypeId) (target : TypeId) :
    c.parameterOccurrences params target =
      (params.mapIdx fun i root => (c.occurrences root target).map fun o => ⟨i, o⟩).flatten := by
  rw [parameterOccurrences, List.flatMap_def, List.mapIdx_eq_zipIdx_map]

theorem WellFormed.searchesExactly (hc : c.WellFormed) : c.SearchesExactly where
  halts := hc.halts_search
  leads root target o := hc.mem_occurrences_iff
  once root target := (hc.pairwise_occurrences root target).imp fun hlt heq => by
    rw [heq] at hlt
    exact List.lt_irrefl _ hlt
  increasing := hc.pairwise_occurrences
  recursive target paths := by
    rw [hc.listsPaths_iff]
    simp only [hc.indices_occurrences]
  positioned := c.parameterOccurrences_eq_flatten

end

/-- The search for occurrences is exact in every catalogue that calls can build, at every
point, and in the finished one. -/
theorem occurrences_exact {c : Catalog} (hc : c.Reachable) :
    c.SearchesExactly ∧ ∀ h, c.finish = .ok h → h.catalog.SearchesExactly :=
  ⟨hc.wellFormed.searchesExactly, fun _ hfinish =>
    (hc.wellFormed.of_finish hfinish).searchesExactly⟩

/-- `string` occurs twice in `Pair<string, string>`, and the type itself once in itself; the
second occurrence of `string` is still found in the finished catalogue. -/
theorem occurrences_exact_pairs :
    (pairs.Reachable ∧ pairs.finish = .ok ⟨pairsFinished⟩) ∧
    (pairs.occurrences ⟨11⟩ ⟨10⟩).map Occurrence.indices = [[0], [1]] ∧
    (pairs.occurrences ⟨11⟩ ⟨11⟩).map Occurrence.indices = [[]] ∧
    ⟨⟨11⟩, [1]⟩ ∈ pairsFinished.occurrences ⟨11⟩ ⟨10⟩ := by
  obtain ⟨hbuilt, hfinished⟩ := occurrences_exact reachable_pairs
  have hrec : ∀ target, pairs.ListsPaths target fun id =>
      (pairs.occurrences id target).map Occurrence.indices :=
    fun target => (hbuilt.recursive target _).mpr fun _ => rfl
  have hstring : (pairs.occurrences ⟨10⟩ ⟨10⟩).map Occurrence.indices = [[]] :=
    (hrec ⟨10⟩ ⟨10⟩).trans (if_pos rfl)
  have hpair : (pairs.occurrences ⟨11⟩ ⟨10⟩).map Occurrence.indices = [[0], [1]] := by
    have hargs : pairs.args ⟨11⟩ = [⟨10⟩, ⟨10⟩] := rfl
    refine (hrec ⟨10⟩ ⟨11⟩).trans ?_
    simp [hargs, hstring, -List.map_map]
  have hargs' : pairsFinished.args ⟨11⟩ = [⟨10⟩, ⟨10⟩] :=
    args_of_application (form?_withInheritedInterfaces pairsLinked ⟨11⟩)
  refine ⟨⟨reachable_pairs, finish_pairs⟩, hpair, (hrec ⟨11⟩ ⟨11⟩).trans (if_pos rfl), ?_⟩
  refine ((hfinished _ finish_pairs).leads _ _ _).mpr ⟨rfl, .into (a := ⟨10⟩) ?_ (.here _)⟩
  rw [hargs']
  rfl

end Generics.Catalog

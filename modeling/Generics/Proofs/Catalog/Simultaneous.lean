/-
Generics.Proofs.Catalog.Simultaneous — what substituting into a type answers.

The tree of the answer is the tree of the type with all its parameters replaced at
once: what is put in is not looked at again, so a parameter may be replaced by a type in
which it occurs, and two parameters may be exchanged.

A type that no replaced parameter occurs in is its own answer. This needs no second look at
the descent. The parts of the tree are then parts of a type that is there, so nothing can be
new among them and no limit can be in the way (`Within.unchanged_of_present`).
-/
import Generics.Proofs.Hierarchy.Closure
import Generics.Proofs.Hierarchy.DirectLinks

namespace Generics.Catalog

open TypeTree

/-! ## 1. Types that a substitution leaves alone -/

/-- The type `id` has no parameter that `σ` gives another type to. -/
def Unmoved (c : Catalog) (σ : Substitution) (id : TypeId) : Prop :=
  ∀ p a, Part (.leaf p) (c.tree id) → σ.lookup p = some a → a = p

section

variable {c c' : Catalog} {σ : Substitution} {id : TypeId} {X : TypeTree → Prop}

theorem Unmoved.substitutedTree_eq (h : c.Unmoved σ id) (hσ : c.Substitutes σ) :
    c.substitutedTree σ id = c.tree id := by
  refine replace_eq_self fun p hp => ?_
  unfold assigned
  cases hlookup : σ.lookup p with
  | none => rfl
  | some a =>
    obtain rfl := h p a hp hlookup
    exact tree_of_definition?_none (definition?_of_isParameter (hσ hlookup).1)

/-- The applications in a type are there. -/
theorem WellFormed.mem_appliedTrees_of_part (hc : c.WellFormed) {u : TypeTree}
    (h : c.AppliedPart (c.tree id) u) : u ∈ c.appliedTrees :=
  hc.mem_appliedTrees_iff.mpr ⟨h.2, hc.exists_tree_of_part h.1 ⟨id, rfl⟩⟩

/-- A catalogue does not grow by what it has. -/
theorem Grows.nodes_eq_of_present (h : Grows X c c') (hX : ∀ u, X u → u ∈ c.appliedTrees) :
    c'.nodes = c.nodes := by
  have hsize : c'.nodes.size ≤ c.nodes.size := by
    refine Nat.le_of_not_lt fun hlt => ?_
    have hknown : c'.knows ⟨c.nodes.size⟩ = true := knows_iff.mpr hlt
    obtain ⟨node, hnode⟩ := node?_of_knows hknown
    rcases h.added hnode with hold | ⟨-, -, -, hnew⟩
    · exact absurd (knows_iff.mp (knows_of_node? hold)) (Nat.lt_irrefl _)
    · -- the tree of the first new type is the tree of an old one
      obtain ⟨x, d, args, hform, htree⟩ := hX _ hnew
      have hx := knows_of_form? hform
      rw [← h.preserves.tree hx] at htree
      obtain rfl := h.wellFormed.tree_injective htree
      exact absurd (knows_iff.mp hx) (Nat.lt_irrefl _)
  rw [h.nodes_eq, Array.extract_eq_empty_of_le (by omega), Array.append_empty]

/-- A run that may only enter what is there succeeds, and enters nothing. -/
theorem Within.unchanged_of_present {α : Type} {Q : α → Catalog → Prop}
    {result : Except CatalogError α × Catalog} (h : Within X c Q result)
    (hX : ∀ u, X u → u ∈ c.appliedTrees) :
    (∃ a, result.1 = .ok a ∧ Q a result.2) ∧ result.2.nodes = c.nodes := by
  refine ⟨?_, h.grows.nodes_eq_of_present hX⟩
  cases hresult : result.1 with
  | ok a => exact ⟨a, rfl, h.ok hresult⟩
  | error e =>
    have hthere : ∀ t, X t → ∃ x, result.2.tree x = t := by
      intro t ht
      obtain ⟨x, d, args, hform, rfl⟩ := hX t ht
      exact ⟨x, h.grows.preserves.tree (knows_of_form? hform)⟩
    cases h.error hresult with
    | @tooDeep name t ht hdeep =>
      obtain ⟨x, rfl⟩ := hthere t ht
      rw [← h.grows.wellFormed.depth_eq_treeDepth] at hdeep
      exact absurd (h.grows.wellFormed.depth_le x) (Nat.not_le.mpr hdeep)
    | @tooMany t ht hnew hfull =>
      obtain ⟨x, hx⟩ := hthere t ht
      exact absurd hx (hnew x)

end

/-! ## 2. Substitution -/

/-- Substituting into a type replaces its parameters all at once. The answer is the only
type with the replaced tree. A type without a moved parameter is its own answer. A
refusal names a limit that an application in the replaced tree is beyond. In any case
applications are appended and nothing else is done. -/
theorem substitute_simultaneous {c c' : Catalog} (hc : c.Reachable) {σ : Substitution}
    (hσ : c.Substitutes σ) {id : TypeId} (hid : c.knows id = true)
    {result : Except CatalogError TypeId} (hrun : (substitute σ id).run.run c = (result, c')) :
    (∀ r, result = .ok r → c'.knows r = true ∧
      ∀ x, c'.tree x = (c.tree id).replace (c.assigned σ) ↔ x = r) ∧
    (c.Unmoved σ id → result = .ok id ∧ c'.nodes = c.nodes) ∧
    (∀ e, result = .error e →
      Refused (c.AppliedPart ((c.tree id).replace (c.assigned σ))) c' e) ∧
    c.AppendsApplications c' := by
  have hwf := hc.wellFormed
  have hwithin := within_substitute (X := c.AppliedPart (c.substitutedTree σ id)) hwf hσ hid
    fun _ hu => hu
  rw [hrun] at hwithin
  have hgrows := hwithin.grows
  have hinjective := hgrows.wellFormed.tree_injective
  refine ⟨fun r hr => ?_, fun hunmoved => ?_, fun e he => hwithin.error he, hgrows.appends hwf⟩
  · obtain ⟨hknown, htree⟩ := hwithin.ok hr
    refine ⟨hknown, fun x => ?_⟩
    rw [← hinjective.eq_iff, htree]
    rfl
  · have hsame := hunmoved.substitutedTree_eq hσ
    rw [hsame] at hwithin
    obtain ⟨⟨r, hr, -, htree⟩, hnodes⟩ :=
      hwithin.unchanged_of_present fun u hu => hwf.mem_appliedTrees_of_part hu
    rw [← hgrows.preserves.tree hid, hinjective.eq_iff] at htree
    subst htree
    exact ⟨hr, hnodes⟩

/-- `B` for `A`, and `Box<A>` for `B`. -/
def crossed : Substitution := [(⟨5⟩, ⟨6⟩), (⟨6⟩, ⟨7⟩)]

/-- `pairs` with `Pair<B, Box<A>>`. -/
def pairsCrossed : Catalog :=
  (pairs.addApplication ⟨4⟩ pairDefinition [⟨6⟩, ⟨7⟩]).2

theorem lookup_crossed {p a : TypeId} (h : crossed.lookup p = some a) :
    (p = ⟨5⟩ ∧ a = ⟨6⟩) ∨ (p = ⟨6⟩ ∧ a = ⟨7⟩) := by
  by_cases hp : p = ⟨5⟩
  · subst hp
    exact .inl ⟨rfl, (Option.some.inj h).symm⟩
  · by_cases hp' : p = ⟨6⟩
    · subst hp'
      exact .inr ⟨rfl, (Option.some.inj h).symm⟩
    · simp [crossed, List.lookup_cons, beq_false_of_ne hp, beq_false_of_ne hp'] at h

theorem substitutes_crossed : pairs.Substitutes crossed := by
  intro p a hlookup
  rcases lookup_crossed hlookup with ⟨rfl, rfl⟩ | ⟨rfl, rfl⟩ <;> decide

theorem substitute_crossed :
    (substitute crossed ⟨4⟩).run.run pairs = (.ok ⟨12⟩, pairsCrossed) := by
  rw [substitute]
  show (instantiate ⟨4⟩ [⟨6⟩, ⟨7⟩]).run.run pairs = _
  exact instantiate_new ⟨4⟩ [⟨6⟩, ⟨7⟩] rfl rfl rfl (by decide) (by decide) (by simp [pairs])
    (by decide) (by simp [pairs, Std.HashMap.size_insert, Limits.applications])

/-- `Pair<A, B>`, `Box<A>` and `Pair<string, string>` written out. -/
theorem tree_pairs :
    pairs.tree ⟨4⟩ = .apply ⟨4⟩ [.leaf ⟨5⟩, .leaf ⟨6⟩] ∧
    pairs.tree ⟨7⟩ = .apply ⟨0⟩ [.leaf ⟨5⟩] ∧
    pairs.tree ⟨11⟩ = .apply ⟨4⟩ [.leaf ⟨10⟩, .leaf ⟨10⟩] := by
  have hwf := reachable_pairs.wellFormed
  have hA : pairs.tree ⟨5⟩ = .leaf ⟨5⟩ := tree_of_definition?_none rfl
  have hB : pairs.tree ⟨6⟩ = .leaf ⟨6⟩ := tree_of_definition?_none rfl
  have hstring : pairs.tree ⟨10⟩ = .leaf ⟨10⟩ := tree_of_definition?_none rfl
  have hpair : pairs.definition? ⟨4⟩ = some ⟨4⟩ ∧ pairs.args ⟨4⟩ = [⟨5⟩, ⟨6⟩] := ⟨rfl, rfl⟩
  have hbox : pairs.form? ⟨7⟩ = some (.application ⟨0⟩ [⟨5⟩]) := rfl
  have hstrings : pairs.form? ⟨11⟩ = some (.application ⟨4⟩ [⟨10⟩, ⟨10⟩]) := rfl
  refine ⟨?_, ?_, ?_⟩
  · simp [hwf.tree_of_definition? hpair.1, hpair.2, hA, hB]
  · simp [hwf.tree_of_application hbox, hA]
  · simp [hwf.tree_of_application hstrings, hstring]

/-- `Pair<A, B>` becomes `Pair<B, Box<A>>`, where neither the new `B` nor the new `A` is
replaced once more; `Pair<string, string>` stays. -/
theorem substitute_simultaneous_crossed :
    pairs.Reachable ∧ pairs.Substitutes crossed ∧
    (∀ x, pairsCrossed.tree x = .apply ⟨4⟩ [.leaf ⟨6⟩, .apply ⟨0⟩ [.leaf ⟨5⟩]] ↔ x = ⟨12⟩) ∧
    pairs.AppendsApplications pairsCrossed ∧
    ((substitute crossed ⟨11⟩).run.run pairs).1 = .ok ⟨11⟩ := by
  obtain ⟨hpair, hbox, hstrings⟩ := tree_pairs
  have hmade := substitute_simultaneous reachable_pairs substitutes_crossed (by decide)
    substitute_crossed
  have hstring : pairs.knows ⟨11⟩ = true := by decide
  have hkept := substitute_simultaneous reachable_pairs substitutes_crossed hstring rfl
  refine ⟨reachable_pairs, substitutes_crossed, ?_, hmade.2.2.2, (hkept.2.1 ?_).1⟩
  · have hB : pairs.tree ⟨6⟩ = .leaf ⟨6⟩ := tree_of_definition?_none rfl
    have hforA : pairs.assigned crossed ⟨5⟩ = pairs.tree ⟨6⟩ := rfl
    have hforB : pairs.assigned crossed ⟨6⟩ = pairs.tree ⟨7⟩ := rfl
    have htree : (pairs.tree ⟨4⟩).replace (pairs.assigned crossed) =
        .apply ⟨4⟩ [.leaf ⟨6⟩, .apply ⟨0⟩ [.leaf ⟨5⟩]] := by
      simp [hpair, hforA, hforB, hB, hbox]
    rw [← htree]
    exact (hmade.1 ⟨12⟩ rfl).2
  · intro p a hp hlookup
    rw [hstrings] at hp
    cases hp with
    | arg hmem hpart =>
      simp only [List.mem_cons, List.not_mem_nil, or_false, or_self] at hmem
      subst hmem
      cases hpart
      cases hlookup

end Generics.Catalog

/-
Generics.Proofs.Catalog.Tracking — a catalogue that is built along another.

While a catalogue is built again, in another order, a renaming leads from each of
its types to the type of the finished one that it will stand for. `Tracks` is
`Follows` for that time: numbers that are not given out yet, or that went to an
application, lead nowhere. It stays when applications are entered that the finished
catalogue has (`Tracks.grows`) and when links change (`Tracks.relink`), and the
renaming is extended when types or type parameters are declared (`NewTypes.tracks`).
Nothing that leads somewhere is refused, since the finished catalogue has room for
it (`Tracks.not_refused`).
-/
import Generics.Proofs.Catalog.Following
import Generics.Proofs.Hierarchy.Closure

namespace Generics.Catalog

open TypeTree

/-! ## 1. Tracks -/

/-- Whether a type was declared, and is not an application. -/
def isDeclared (c : Catalog) (id : TypeId) : Bool :=
  (c.node? id).any fun n => !n.isApplication

theorem isDeclared_iff {c : Catalog} {id : TypeId} :
    c.isDeclared id = true ↔ ∃ n, c.node? id = some n ∧ n.isApplication = false := by
  simp [isDeclared, Option.any_eq_true]

/-- `Follows`, with all other numbers out of the way. -/
structure Tracks (φ : TypeId → TypeId) (c c' : Catalog) : Prop extends Follows φ c c' where
  outside : ∀ {x}, c.isDeclared x = false → c'.knows (φ x) = false

section

variable {c : Catalog} {φ ψ : TypeId → TypeId} {x : TypeId}

theorem Preserves.isDeclared {c' : Catalog} (hp : c.Preserves c') (hx : c.isDeclared x = true) :
    c'.isDeclared x = true := by
  obtain ⟨n, hnode, hnot⟩ := isDeclared_iff.mp hx
  obtain ⟨n', hnode', halike⟩ := hp hnode
  exact isDeclared_iff.mpr ⟨n', hnode', by rw [Node.isApplication, halike.form]; exact hnot⟩

theorem isDeclared_of_isParameter (h : c.isParameter x = true) : c.isDeclared x = true := by
  obtain ⟨position, hform⟩ := isParameter_iff.mp h
  obtain ⟨n, hnode, hn⟩ := form?_eq_some.mp hform
  exact isDeclared_iff.mpr ⟨n, hnode, by rw [Node.isApplication, hn]⟩

theorem isDeclared_of_definition {params : List TypeId}
    (h : c.form? x = some (.definition params)) : c.isDeclared x = true := by
  obtain ⟨n, hnode, hn⟩ := form?_eq_some.mp h
  exact isDeclared_iff.mpr ⟨n, hnode, by rw [Node.isApplication, hn]⟩

/-- Renamings that agree on declared types rename forms of declared types alike. -/
theorem WellFormed.form_rename_congr (hc : c.WellFormed)
    (hagree : ∀ x, c.isDeclared x = true → φ x = ψ x) {n : Node} (hnode : c.node? x = some n)
    (hnot : n.isApplication = false) : n.form.rename φ = n.form.rename ψ := by
  cases hform : n.form with
  | plain => rfl
  | parameter position => rfl
  | definition params =>
    have hform' := form?_eq_some.mpr ⟨n, hnode, hform⟩
    rw [Form.rename, Form.rename, List.map_congr_left fun p hp =>
      hagree p (isDeclared_of_isParameter (hc.isParameter_of_mem_params hform' hp))]
  | application d args =>
    rw [isApplication_iff.mpr ⟨d, args, hform⟩] at hnot
    cases hnot

/-- Renamings that agree on declared types rename trees alike. -/
theorem WellFormed.tree_rename_congr (hc : c.WellFormed)
    (hagree : ∀ x, c.isDeclared x = true → φ x = ψ x) (hx : c.knows x = true) :
    (c.tree x).rename φ = (c.tree x).rename ψ := by
  induction x using hc.args_induction with
  | step x ih =>
    cases hdef : c.definition? x with
    | none =>
      obtain ⟨n, hnode⟩ := node?_of_knows hx
      have hnot : n.isApplication = false := by
        rw [Bool.eq_false_iff]
        intro happ
        obtain ⟨d, args, hform⟩ := isApplication_iff.mp happ
        rw [definition?_of_application (form?_eq_some.mpr ⟨n, hnode, hform⟩)] at hdef
        cases hdef
      rw [tree_of_definition?_none hdef, rename_leaf, rename_leaf,
        hagree x (isDeclared_iff.mpr ⟨n, hnode, hnot⟩)]
    | some d =>
      have hd : c.isDeclared d = true := by
        rcases definition?_eq_some hdef with ⟨params, hform, rfl⟩ | ⟨args, hform⟩
        · exact isDeclared_of_definition hform
        · obtain ⟨_, -, happ⟩ := hc.appliedTo hform
          obtain ⟨params, hparams⟩ := isDefinition_iff.mp happ.isDefinition
          exact isDeclared_of_definition hparams
      rw [hc.tree_of_definition? hdef, rename_apply, rename_apply, hagree d hd, List.map_map,
        List.map_map]
      exact congrArg _ (List.map_congr_left fun a ha => ih a ha (hc.knows_of_mem_args ha))

end

/-- A number out of the way. -/
theorem knows_renamingOn_of_neg {p : TypeId → Bool} {c : Catalog} {φ : TypeId → TypeId}
    {x : TypeId} (hx : p x = false) : c.knows (renamingOn p c.size φ x) = false := by
  rw [renamingOn, hx, Bool.eq_false_iff, ne_eq, knows_iff]
  simp

namespace Tracks

variable {φ : TypeId → TypeId} {c c₁ c' : Catalog} {X : TypeTree → Prop}

theorem params (h : Tracks φ c c') (d : TypeId) : c'.params (φ d) = (c.params d).map φ := by
  cases hd : c.isDeclared d with
  | true =>
    obtain ⟨n, hnode, hnot⟩ := isDeclared_iff.mp hd
    obtain ⟨n', hnode', -, -, hform⟩ := h.declared hnode hnot
    rw [Catalog.params, Catalog.params, hnode, hnode', Option.map_some, Option.map_some,
      Option.getD_some, Option.getD_some, Node.params, Node.params, hform]
    cases n.form <;> rfl
  | false =>
    have hnone : c'.node? (φ d) = none := by simpa [knows] using h.outside hd
    have hempty : c.params d = [] := List.eq_nil_iff_forall_not_mem.mpr fun p hp => by
      rw [isDeclared_of_definition (form?_of_mem_params hp)] at hd
      cases hd
    rw [hempty, Catalog.params, hnone]
    rfl

theorem empty (hc' : c'.WellFormed) (φ : TypeId → TypeId) :
    Tracks (renamingOn (fun _ => false) c'.size φ) .empty c' where
  source := empty_wellFormed
  target := hc'
  injective := renamingOn_injective nofun nofun
  declared hnode := by simp [Catalog.empty, node?] at hnode
  trees hx := by simp [Catalog.empty, knows, node?] at hx
  outside _ := knows_renamingOn_of_neg rfl

/-- Entering applications that lead somewhere. -/
theorem grows (h : Tracks φ c c') (hg : Grows X c c₁)
    (hX : ∀ u, X u → ∃ y, c'.tree y = u.rename φ) : Tracks φ c₁ c' where
  source := hg.wellFormed
  target := h.target
  injective := h.injective
  declared := by
    intro x n hnode hnot
    rcases hg.added hnode with hold | ⟨happ, -⟩
    · exact h.declared hold hnot
    · rw [hnot] at happ
      cases happ
  trees := by
    intro x hx
    obtain ⟨n, hnode⟩ := node?_of_knows hx
    rcases hg.added hnode with hold | ⟨-, -, -, hXx⟩
    · have hknown := knows_of_node? hold
      rw [hg.preserves.tree hknown]
      exact h.trees hknown
    · exact hX _ hXx
  outside := by
    intro x hx
    refine h.outside (Bool.eq_false_iff.mpr fun hdeclared => ?_)
    rw [hg.preserves.isDeclared hdeclared] at hx
    cases hx

/-- Changing links. -/
theorem relink (h : Tracks φ c c') (hc₁ : c₁.WellFormed) (hp : c.Preserves c₁)
    (hp' : c₁.Preserves c) : Tracks φ c₁ c' where
  source := hc₁
  target := h.target
  injective := h.injective
  declared := by
    intro x n hnode hnot
    obtain ⟨n₀, hnode₀, halike⟩ := hp' hnode
    obtain ⟨n', hnode', hname, hkind, hform⟩ := h.declared hnode₀
      (by rw [Node.isApplication, halike.form]; exact hnot)
    exact ⟨n', hnode', hname.trans halike.name, hkind.trans halike.kind, halike.form ▸ hform⟩
  trees := by
    intro x hx
    have hknown := hp'.knows hx
    rw [hp.tree hknown]
    exact h.trees hknown
  outside := by
    intro x hx
    refine h.outside (Bool.eq_false_iff.mpr fun hdeclared => ?_)
    rw [hp.isDeclared hdeclared] at hx
    cases hx

/-- What leads to a type of the finished catalogue is within its limits. -/
theorem not_refused (h : Tracks φ c c') {refusal : CatalogError}
    (hX : ∀ u, X u → c.isApplied u = true ∧ ∃ y, c'.tree y = u.rename φ) :
    ¬ Refused X c refusal := by
  intro hrefused
  have hmem : ∀ u, c.isApplied u = true → (∃ y, c'.tree y = u.rename φ) →
      u.rename φ ∈ c'.appliedTrees := fun u happ hy =>
    h.target.mem_appliedTrees_iff.mpr ⟨by rw [isApplied_rename h.injective h.params, happ], hy⟩
  cases hrefused with
  | @tooDeep name t ht hdeep =>
    obtain ⟨happ, hy⟩ := hX t ht
    obtain ⟨y, d, args, hform, htree⟩ := hmem t happ hy
    obtain ⟨n, hnode, hfits⟩ := h.target.appliedTo hform
    rw [← treeDepth_rename h.injective h.params, ← htree, ← h.target.depth_eq_treeDepth, depth,
      hnode] at hdeep
    exact Nat.lt_irrefl _ (Nat.lt_of_lt_of_le hdeep hfits.nesting)
  | @tooMany t ht hnew hfull =>
    obtain ⟨happ, hy⟩ := hX t ht
    have hsub : insert (t.rename φ) (rename φ '' c.appliedTrees) ⊆ c'.appliedTrees := by
      rintro u (rfl | ⟨v, ⟨id, d, args, hform, rfl⟩, rfl⟩)
      · exact hmem t happ hy
      · exact hmem _ (h.source.isApplied_tree_iff.mpr ⟨d, args, hform⟩)
          (h.trees (knows_of_form? hform))
    have hrename := rename_injective h.injective
    have hnot : t.rename φ ∉ rename φ '' c.appliedTrees := by
      rintro ⟨v, ⟨id, _, _, _, htree⟩, hv⟩
      exact hnew id (htree.trans (hrename hv))
    have hcard := Set.encard_le_encard hsub
    rw [Set.encard_insert_of_notMem hnot, hrename.encard_image, h.source.encard_appliedTrees,
      h.target.encard_appliedTrees] at hcard
    have hcount : c.applications.size + 1 ≤ c'.applications.size := by exact_mod_cast hcard
    have hroom := h.target.room
    omega

end Tracks

/-! ## 2. New declared types -/

/-- A node is that of `y`, with the numbers from `start` on renamed to `ys`. -/
def StandsFor (c' : Catalog) (start : Nat) (ys : List TypeId) (n : Node) (y : TypeId) : Prop :=
  ∃ n', c'.node? y = some n' ∧ n'.name = n.name ∧ n'.kind = n.kind ∧
    ∀ θ : TypeId → TypeId, (∀ (j : Nat) z, ys[j]? = some z → θ ⟨start + j⟩ = z) →
      n'.form = n.form.rename θ

/-- `c₁` is `c` with new declared types, which stand for the types `ys` of `c'`.
Nothing in `c` stands for these. -/
structure NewTypes (φ : TypeId → TypeId) (c c₁ c' : Catalog) (added : List Node)
    (ys : List TypeId) : Prop where
  nodes : c₁.nodes = c.nodes ++ added.toArray
  wellFormed : c₁.WellFormed
  notApplied : ∀ n ∈ added, n.isApplication = false
  length : ys.length = added.length
  nodup : ys.Nodup
  free : ∀ x, c.isDeclared x = true → φ x ∉ ys
  stands : ∀ (i : Nat) n y, added[i]? = some n → ys[i]? = some y → c'.StandsFor c.size ys n y

/-- The renaming `φ` for the types of `c`, and `ys` for those that `c₁` has beside
them. -/
def extended (φ : TypeId → TypeId) (c c₁ c' : Catalog) (ys : List TypeId) : TypeId → TypeId :=
  renamingOn c₁.isDeclared c'.size fun x =>
    if x.index < c.size then φ x else ys.getD (x.index - c.size) x

namespace NewTypes

variable {φ : TypeId → TypeId} {c c₁ c' : Catalog} {added : List Node} {ys : List TypeId}

theorem extended_old (h : NewTypes φ c c₁ c' added ys) {x : TypeId}
    (hx : c.isDeclared x = true) : extended φ c c₁ c' ys x = φ x := by
  obtain ⟨n, hnode, -⟩ := isDeclared_iff.mp hx
  rw [extended, renamingOn_of_pos ((preserves_append h.nodes).isDeclared hx),
    if_pos (knows_iff.mp (knows_of_node? hnode))]

theorem extended_new (h : NewTypes φ c c₁ c' added ys) {j : Nat} {z : TypeId}
    (hz : ys[j]? = some z) : extended φ c c₁ c' ys ⟨c.size + j⟩ = z := by
  have hlt : j < added.length := h.length ▸ (List.getElem?_eq_some_iff.mp hz).1
  have hnode := node?_append_new h.nodes j
  rw [List.getElem?_eq_getElem hlt] at hnode
  have hdeclared : c₁.isDeclared ⟨c.size + j⟩ = true :=
    isDeclared_iff.mpr ⟨_, hnode, h.notApplied _ (List.getElem_mem hlt)⟩
  rw [extended, renamingOn_of_pos hdeclared]
  simp [hz]

/-- A declared type is an old one, or a new one with its place in `ys`. -/
theorem cases (h : NewTypes φ c c₁ c' added ys) {x : TypeId} {n : Node}
    (hnode : c₁.node? x = some n) :
    c.node? x = some n ∨
      ∃ i y, x = ⟨c.size + i⟩ ∧ added[i]? = some n ∧ ys[i]? = some y := by
  rcases node?_append_cases h.nodes hnode with hold | ⟨-, i, rfl, hi⟩
  · exact .inl hold
  · have hlt : i < ys.length := h.length ▸ (List.getElem?_eq_some_iff.mp hi).1
    exact .inr ⟨i, ys[i], rfl, hi, List.getElem?_eq_getElem hlt⟩

theorem extended_cases (h : NewTypes φ c c₁ c' added ys) {x : TypeId}
    (hx : c₁.isDeclared x = true) :
    c.isDeclared x = true ∧ extended φ c c₁ c' ys x = φ x ∨ extended φ c c₁ c' ys x ∈ ys := by
  obtain ⟨n, hnode, hnot⟩ := isDeclared_iff.mp hx
  rcases h.cases hnode with hold | ⟨i, y, rfl, -, hy⟩
  · have hold' := isDeclared_iff.mpr ⟨n, hold, hnot⟩
    exact .inl ⟨hold', h.extended_old hold'⟩
  · rw [h.extended_new hy]
    exact .inr (List.mem_of_getElem? hy)

/-- Declared types are found where the extended renaming leads. -/
theorem node?_extended (h : NewTypes φ c c₁ c' added ys) (ht : Tracks φ c c') {x : TypeId}
    {n : Node} (hnode : c₁.node? x = some n) (hnot : n.isApplication = false) :
    ∃ n', c'.node? (extended φ c c₁ c' ys x) = some n' ∧ n'.name = n.name ∧ n'.kind = n.kind ∧
      n'.form = n.form.rename (extended φ c c₁ c' ys) := by
  rcases h.cases hnode with hold | ⟨i, y, rfl, hi, hy⟩
  · obtain ⟨n', hnode', hname, hkind, hform⟩ := ht.declared hold hnot
    refine ⟨n', ?_, hname, hkind, ?_⟩
    · rw [h.extended_old (isDeclared_iff.mpr ⟨n, hold, hnot⟩), hnode']
    · rw [hform]
      exact ht.source.form_rename_congr (fun x hx => (h.extended_old hx).symm) hold hnot
  · obtain ⟨n', hnode', hname, hkind, hform⟩ := h.stands i n y hi hy
    rw [h.extended_new hy]
    exact ⟨n', hnode', hname, hkind, hform _ fun _ _ hz => h.extended_new hz⟩

theorem extended_injective (h : NewTypes φ c c₁ c' added ys) (ht : Tracks φ c c') :
    Function.Injective (extended φ c c₁ c' ys) := by
  have hof : ∀ x, c₁.isDeclared x = true → extended φ c c₁ c' ys x =
      if x.index < c.size then φ x else ys.getD (x.index - c.size) x := fun x hx =>
    renamingOn_of_pos hx _ _
  refine renamingOn_injective (fun x hx => ?_) fun a b ha hb hab => ?_
  · obtain ⟨n, hnode, hnot⟩ := isDeclared_iff.mp hx
    obtain ⟨n', hnode', -⟩ := h.node?_extended ht hnode hnot
    rw [hof x hx] at hnode'
    exact knows_iff.mp (knows_of_node? hnode')
  · simp only [← hof a ha, ← hof b hb] at hab
    obtain ⟨n, hnode, hnot⟩ := isDeclared_iff.mp ha
    obtain ⟨m, hnode', hnot'⟩ := isDeclared_iff.mp hb
    rcases h.cases hnode with hold | ⟨i, y, rfl, -, hy⟩ <;>
      rcases h.cases hnode' with hold' | ⟨j, z, rfl, -, hz⟩
    · rw [h.extended_old (isDeclared_iff.mpr ⟨n, hold, hnot⟩),
        h.extended_old (isDeclared_iff.mpr ⟨m, hold', hnot'⟩)] at hab
      exact ht.injective hab
    · rw [h.extended_old (isDeclared_iff.mpr ⟨n, hold, hnot⟩), h.extended_new hz] at hab
      exact absurd (hab ▸ List.mem_of_getElem? hz) (h.free a (isDeclared_iff.mpr ⟨n, hold, hnot⟩))
    · rw [h.extended_old (isDeclared_iff.mpr ⟨m, hold', hnot'⟩), h.extended_new hy] at hab
      exact absurd (hab ▸ List.mem_of_getElem? hy) (h.free b (isDeclared_iff.mpr ⟨m, hold', hnot'⟩))
    · rw [h.extended_new hy, h.extended_new hz] at hab
      subst hab
      obtain ⟨hi, hyi⟩ := List.getElem?_eq_some_iff.mp hy
      obtain ⟨hj, hyj⟩ := List.getElem?_eq_some_iff.mp hz
      rw [h.nodup.getElem_inj_iff.mp (hyi.trans hyj.symm)]

/-- The extended renaming leads on. -/
theorem tracks (h : NewTypes φ c c₁ c' added ys) (ht : Tracks φ c c') :
    Tracks (extended φ c c₁ c' ys) c₁ c' where
  source := h.wellFormed
  target := ht.target
  injective := h.extended_injective ht
  declared := h.node?_extended ht
  trees := by
    intro x hx
    obtain ⟨n, hnode⟩ := node?_of_knows hx
    rcases node?_append_cases h.nodes hnode with hold | ⟨-, i, rfl, hi⟩
    · have hknown := knows_of_node? hold
      obtain ⟨y, hy⟩ := ht.trees hknown
      refine ⟨y, ?_⟩
      rw [hy, (preserves_append h.nodes).tree hknown]
      exact ht.source.tree_rename_congr (fun x hx => (h.extended_old hx).symm) hknown
    · have hnot := h.notApplied n (List.mem_of_getElem? hi)
      obtain ⟨n', hnode', -, -, hform⟩ := h.node?_extended ht hnode hnot
      refine ⟨_, tree_of_form_rename (form?_of_node? hnode) ?_ fun d args happ => ?_⟩
      · rw [form?_of_node? hnode', hform]
      · rw [isApplication_iff.mpr ⟨d, args, happ⟩] at hnot
        cases hnot
  outside hx := knows_renamingOn_of_neg hx

end NewTypes

end Generics.Catalog

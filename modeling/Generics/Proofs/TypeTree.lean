/-
Generics.Proofs.TypeTree — types written out as trees.

A number stands for a type only inside its catalogue. Written out, a type is a
tree: a plain type or a type parameter is a leaf, and a generic type is its
definition over the trees of its arguments. An open definition, which stands
for itself applied to its own parameters, is a tree over these parameters. Two
numbers stand for structurally the same type exactly when their trees are
equal.

The statements here are about trees alone: replacing leaves, the parts of a
tree, and how deep applications nest in it.
-/
import Generics.Catalog.Basic

namespace Generics

/-- Lists with equal images are equal if their elements with equal images are. -/
theorem eq_of_map_eq_map {α β : Type} {f g : α → β} {l l' : List α} (h : l.map f = l'.map g)
    (heq : ∀ a ∈ l, ∀ b, f a = g b → a = b) : l = l' := by
  induction l generalizing l' with
  | nil => exact (List.map_eq_nil_iff.mp h.symm).symm
  | cons a rest ih =>
    cases l' with
    | nil => cases h
    | cons b rest' =>
      rw [List.map_cons, List.map_cons, List.cons.injEq] at h
      rw [heq a List.mem_cons_self b h.1, ih h.2 fun x hx => heq x (List.mem_cons_of_mem _ hx)]

/-- A type with everything below it: the definitions it is made of, down to
plain types and type parameters. -/
inductive TypeTree where
  | leaf (id : TypeId)
  | apply (definition : TypeId) (args : List TypeTree)
  deriving Repr

namespace TypeTree

/-- Induction on trees, with the hypothesis for every argument. -/
@[induction_eliminator]
theorem induction {motive : TypeTree → Prop} (leaf : ∀ id, motive (.leaf id))
    (apply : ∀ definition args, (∀ a ∈ args, motive a) → motive (.apply definition args)) :
    ∀ t, motive t
  | .leaf id => leaf id
  | .apply definition args => apply definition args fun a _ => induction leaf apply a

/-! ## 1. Replacing leaves -/

mutual

/-- The tree with another tree in place of each leaf. What is put in is not
searched for leaves again. -/
def replace (σ : TypeId → TypeTree) : TypeTree → TypeTree
  | leaf id => σ id
  | apply definition args => apply definition (replaceAll σ args)

/-- Several trees with their leaves replaced. -/
def replaceAll (σ : TypeId → TypeTree) : List TypeTree → List TypeTree
  | [] => []
  | a :: rest => replace σ a :: replaceAll σ rest

end

@[simp] theorem replaceAll_eq_map (σ : TypeId → TypeTree) (args : List TypeTree) :
    replaceAll σ args = args.map (replace σ) := by
  induction args with
  | nil => rfl
  | cons a rest ih => rw [replaceAll, ih, List.map_cons]

@[simp] theorem replace_leaf (σ : TypeId → TypeTree) (id : TypeId) :
    (leaf id).replace σ = σ id := rfl

@[simp] theorem replace_apply (σ : TypeId → TypeTree) (definition : TypeId)
    (args : List TypeTree) :
    (apply definition args).replace σ = apply definition (args.map (replace σ)) := by
  rw [replace, replaceAll_eq_map]

/-- Arguments in place of parameters, position by position; other leaves stay. -/
def filling (params : List TypeId) (args : List TypeTree) (id : TypeId) : TypeTree :=
  ((params.zip args).lookup id).getD (leaf id)

/-- A parameter is replaced by the argument at its position. -/
theorem filling_map_of_mem {params : List TypeId} {p : TypeId} (hp : p ∈ params)
    (σ : TypeId → TypeTree) : filling params (params.map σ) p = σ p := by
  unfold filling
  induction params with
  | nil => cases hp
  | cons q rest ih =>
    rw [List.map_cons, List.zip_cons_cons, List.lookup_cons]
    by_cases heq : p = q
    · simp [heq]
    · have hp' := (List.mem_cons.mp hp).resolve_left heq
      rw [beq_false_of_ne heq]
      exact ih hp'

/-- What is not a parameter stays. -/
theorem filling_of_not_mem {params : List TypeId} {p : TypeId} (hp : p ∉ params)
    (args : List TypeTree) : filling params args p = leaf p := by
  have hnone : (params.zip args).lookup p = none := by
    refine List.lookup_eq_none_iff.mpr fun x hx => ?_
    have hne : p ≠ x.1 := by
      rintro rfl
      exact hp (List.of_mem_zip hx).1
    simpa using hne
  rw [filling, hnone]
  rfl

/-- The parameters are replaced by the arguments. -/
theorem map_filling {params : List TypeId} {args : List TypeTree} (hnodup : params.Nodup)
    (hlength : args.length = params.length) : params.map (filling params args) = args := by
  induction params generalizing args with
  | nil => exact (List.eq_nil_of_length_eq_zero hlength).symm
  | cons q rest ih =>
    cases args with
    | nil => cases hlength
    | cons a args =>
      obtain ⟨hq, hrest⟩ := List.nodup_cons.mp hnodup
      have htail : rest.map (filling (q :: rest) (a :: args)) = rest.map (filling rest args) := by
        refine List.map_congr_left fun p hp => ?_
        have hne : p ≠ q := by
          rintro rfl
          exact hq hp
        rw [filling, List.zip_cons_cons, List.lookup_cons, beq_false_of_ne hne]
        rfl
      rw [List.map_cons, htail, ih hrest (Nat.succ.inj hlength)]
      simp [filling]

/-- Replacing leaves in the arguments replaces them in what is filled in. -/
theorem filling_map_replace {params : List TypeId} {args : List TypeTree} {p : TypeId}
    (hlength : args.length = params.length) (hp : p ∈ params) (σ : TypeId → TypeTree) :
    filling params (args.map (replace σ)) p = (filling params args p).replace σ := by
  induction params generalizing args with
  | nil => cases hp
  | cons q rest ih =>
    cases args with
    | nil => cases hlength
    | cons a args =>
      simp only [filling, List.map_cons, List.zip_cons_cons, List.lookup_cons]
      by_cases heq : p = q
      · simp [heq]
      · have hp' := (List.mem_cons.mp hp).resolve_left heq
        rw [beq_false_of_ne heq]
        exact ih (Nat.succ.inj hlength) hp'

/-! ## 2. Parts -/

/-- `Part u t`: the tree `u` is `t` itself or lies below one of its arguments. -/
inductive Part : TypeTree → TypeTree → Prop
  | refl (t : TypeTree) : Part t t
  | arg {u a : TypeTree} {definition : TypeId} {args : List TypeTree} (mem : a ∈ args)
      (part : Part u a) : Part u (apply definition args)

/-- What is put in place of the leaves that occur decides. -/
theorem replace_congr {σ τ : TypeId → TypeTree} {t : TypeTree}
    (h : ∀ id, Part (leaf id) t → σ id = τ id) : t.replace σ = t.replace τ := by
  induction t with
  | leaf id => exact h id (.refl _)
  | apply definition args ih =>
    rw [replace_apply, replace_apply]
    congr 1
    exact List.map_congr_left fun a ha => ih a ha fun id hid => h id (.arg ha hid)

/-- Leaves for themselves change nothing. -/
theorem replace_eq_self {σ : TypeId → TypeTree} {t : TypeTree}
    (h : ∀ id, Part (leaf id) t → σ id = leaf id) : t.replace σ = t := by
  induction t with
  | leaf id => exact h id (.refl _)
  | apply definition args ih =>
    rw [replace_apply, List.map_congr_left fun a ha => ih a ha fun id hid => h id (.arg ha hid),
      List.map_id']

/-- Replacing twice is replacing once, by what the second makes of the first. -/
theorem replace_replace (σ τ : TypeId → TypeTree) (t : TypeTree) :
    (t.replace σ).replace τ = t.replace fun id => (σ id).replace τ := by
  induction t with
  | leaf id => rfl
  | apply definition args ih =>
    rw [replace_apply, replace_apply, replace_apply, List.map_map]
    congr 1
    exact List.map_congr_left ih

/-! ## 3. Leaves as arguments -/

/-- The number at a leaf. -/
def leaf? : TypeTree → Option TypeId
  | leaf id => some id
  | apply .. => none

theorem leaf?_eq_some {t : TypeTree} {id : TypeId} : t.leaf? = some id ↔ t = leaf id := by
  cases t with
  | leaf i => simp [leaf?]
  | apply d args => simp [leaf?]

/-- Whether trees are these leaves, in this order. -/
theorem map_leaf?_eq {args : List TypeTree} {ids : List TypeId} :
    args.map leaf? = ids.map some ↔ args = ids.map leaf := by
  induction args generalizing ids with
  | nil => cases ids <;> simp
  | cons a rest ih =>
    cases ids with
    | nil => simp
    | cons id ids =>
      rw [List.map_cons, List.map_cons, List.map_cons, List.cons.injEq, List.cons.injEq,
        leaf?_eq_some, ih]

/-! ## 4. Renaming -/

mutual

/-- The tree with other numbers. -/
def rename (φ : TypeId → TypeId) : TypeTree → TypeTree
  | leaf id => leaf (φ id)
  | apply definition args => apply (φ definition) (renameAll φ args)

/-- Several trees with other numbers. -/
def renameAll (φ : TypeId → TypeId) : List TypeTree → List TypeTree
  | [] => []
  | a :: rest => rename φ a :: renameAll φ rest

end

@[simp] theorem renameAll_eq_map (φ : TypeId → TypeId) (args : List TypeTree) :
    renameAll φ args = args.map (rename φ) := by
  induction args with
  | nil => rfl
  | cons a rest ih => rw [renameAll, ih, List.map_cons]

@[simp] theorem rename_leaf (φ : TypeId → TypeId) (id : TypeId) :
    (leaf id).rename φ = leaf (φ id) := rfl

@[simp] theorem rename_apply (φ : TypeId → TypeId) (definition : TypeId) (args : List TypeTree) :
    (apply definition args).rename φ = apply (φ definition) (args.map (rename φ)) := by
  rw [rename, renameAll_eq_map]

theorem rename_self (t : TypeTree) : t.rename (fun id => id) = t := by
  induction t with
  | leaf id => rw [rename_leaf]
  | apply definition args ih => rw [rename_apply, List.map_congr_left ih, List.map_id']

@[simp] theorem leaf?_rename (φ : TypeId → TypeId) (t : TypeTree) :
    (t.rename φ).leaf? = t.leaf?.map φ := by
  cases t <;> simp [leaf?]

theorem rename_injective {φ : TypeId → TypeId} (hφ : Function.Injective φ) :
    Function.Injective (rename φ) := by
  intro t
  induction t with
  | leaf id =>
    intro u hu
    cases u with
    | leaf id' => simpa [hφ.eq_iff] using hu
    | apply d args => simp at hu
  | apply d args ih =>
    intro u hu
    cases u with
    | leaf id => simp at hu
    | apply d' args' =>
      simp only [rename_apply, apply.injEq, hφ.eq_iff] at hu ⊢
      exact ⟨hu.1, eq_of_map_eq_map hu.2 fun a ha b hab => ih a ha hab⟩

/-- Renaming what is put in for leaves, along with the leaves. -/
theorem rename_replace {φ : TypeId → TypeId} {σ τ : TypeId → TypeTree}
    (h : ∀ id, τ (φ id) = (σ id).rename φ) (t : TypeTree) :
    (t.replace σ).rename φ = (t.rename φ).replace τ := by
  induction t with
  | leaf id => exact (h id).symm
  | apply d args ih =>
    simp only [replace_apply, rename_apply, List.map_map]
    congr 1
    exact List.map_congr_left ih

theorem filling_rename {φ : TypeId → TypeId} (hφ : Function.Injective φ) (params : List TypeId)
    (args : List TypeTree) (id : TypeId) :
    filling (params.map φ) (args.map (rename φ)) (φ id) = (filling params args id).rename φ := by
  induction params generalizing args with
  | nil => rfl
  | cons p rest ih =>
    cases args with
    | nil => rfl
    | cons a args =>
      simp only [filling, List.map_cons, List.zip_cons_cons, List.lookup_cons]
      by_cases heq : id = p
      · simp [heq]
      · have hne : φ id ≠ φ p := fun h => heq (hφ h)
        rw [beq_false_of_ne heq, beq_false_of_ne hne]
        exact ih args

theorem Part.rename {u t : TypeTree} (h : Part u t) (φ : TypeId → TypeId) :
    Part (u.rename φ) (t.rename φ) := by
  induction h with
  | refl => exact .refl _
  | arg hmem _ ih =>
    rw [rename_apply]
    exact .arg (List.mem_map_of_mem hmem) ih

end TypeTree

end Generics

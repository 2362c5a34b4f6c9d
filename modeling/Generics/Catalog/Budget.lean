/-
Generics.Catalog.Budget — how large a catalogue can still become.

The number of types plus the number of applications that may still be made is
a bound for the size that a catalogue can reach by applying definitions. Each
new application moves one from the second number to the first, so the sum never
changes, whether an operation succeeds or is refused.
-/
import Generics.Catalog.Substitution

namespace Generics.Catalog

/-- The size that the catalogue can reach by applications alone. -/
def budget (c : Catalog) : Nat :=
  c.size + (Limits.applications - c.applications.size)

theorem size_le_budget (c : Catalog) : c.size ≤ c.budget :=
  Nat.le_add_right _ _

/-- A new application is paid for out of the budget. -/
theorem budget_addApplication {c : Catalog} {definition : TypeId} {args : List TypeId} (node : Node)
    (new : c.applications[(definition, args)]? = none)
    (room : c.applications.size < Limits.applications) :
    (c.addApplication definition node args).2.budget = c.budget := by
  have habsent : (definition, args) ∉ c.applications := by
    intro hmem
    rw [Std.HashMap.mem_iff_isSome_getElem?, new] at hmem
    exact absurd hmem (by simp)
  simp only [addApplication, budget, size, Array.size_push, Std.HashMap.size_insert, if_neg habsent]
  omega

/-- Replacing a node keeps the budget. -/
theorem budget_setNode (c : Catalog) (id : TypeId) (node : Node) :
    (c.setNode id node).budget = c.budget := by
  simp [setNode, budget, size]

/-- A computation that keeps the budget of every catalogue, also when it is
refused. -/
def KeepsBudget {α : Type} (x : Build α) : Prop :=
  ∀ c : Catalog, (x.run.run c).2.budget = c.budget

theorem KeepsBudget.pure {α : Type} (a : α) : KeepsBudget (pure a : Build α) :=
  fun _ => rfl

/-- One computation after another keeps the budget if both do. -/
theorem KeepsBudget.bind {α β : Type} {x : Build α} {f : α → Build β} (hx : KeepsBudget x)
    (hf : ∀ a, KeepsBudget (f a)) : KeepsBudget (x >>= f) := by
  intro c
  have hc := hx c
  rw [ExceptT.run_bind, StateT.run_bind]
  rcases hrun : x.run.run c with ⟨_ | a, c'⟩
  · rw [hrun] at hc
    exact hc
  · rw [hrun] at hc
    exact (hf a c').trans hc

/-- A computation may look at the catalogue first. -/
theorem KeepsBudget.of_get {α : Type} {f : Catalog → Build α}
    (h : ∀ c, ((f c).run.run c).2.budget = c.budget) : KeepsBudget (do f (← get)) :=
  h

theorem keepsBudget_instantiate (definition : TypeId) (args : List TypeId) :
    KeepsBudget (instantiate definition args) := by
  refine KeepsBudget.of_get fun c => ?_
  split
  · rfl
  · split
    · split
      · rfl
      · split
        · rfl
        · split
          · rfl
          · split
            · rfl
            · rename_i hnew
              split
              · rfl
              · split
                · rfl
                · rename_i hroom
                  exact budget_addApplication _ hnew (Nat.lt_of_not_le hroom)
    · rfl

theorem keepsBudget_reapply (id definition : TypeId) (args substituted : List TypeId) :
    KeepsBudget (reapply id definition args substituted) := by
  unfold reapply
  split
  · exact .pure _
  · exact keepsBudget_instantiate _ _

mutual

theorem keepsBudget_substitute (σ : Substitution) (id : TypeId) :
    KeepsBudget (substitute σ id) := by
  rw [substitute]
  split
  · exact .pure _
  · refine KeepsBudget.of_get fun c => ?_
    split
    · rfl
    · split
      · rfl
      · rfl
      · exact keepsBudget_reapply _ _ _ _ c
      · rename_i args _
        exact KeepsBudget.bind (keepsBudget_substituteArgs σ id args)
          (fun _ => keepsBudget_reapply _ _ _ _) c
termination_by (id.index, 1, 0)

theorem keepsBudget_substituteArgs (σ : Substitution) (id : TypeId) :
    (args : List TypeId) → KeepsBudget (substituteArgs σ id args)
  | [] => by
    rw [substituteArgs]
    exact .pure _
  | a :: rest => by
    rw [substituteArgs]
    split
    · exact .bind (keepsBudget_substitute σ a) fun _ =>
        .bind (keepsBudget_substituteArgs σ id rest) fun _ => .pure _
    · exact .bind (keepsBudget_substituteArgs σ id rest) fun _ => .pure _
termination_by args => (id.index, 0, args.length)

end

theorem keepsBudget_substituteAll (σ : Substitution) :
    (ids : List TypeId) → KeepsBudget (substituteAll σ ids)
  | [] => .pure _
  | id :: rest =>
    .bind (keepsBudget_substitute σ id) fun _ =>
      .bind (keepsBudget_substituteAll σ rest) fun _ => .pure _

theorem keepsBudget_substituteBase (σ : Substitution) :
    (base : Option TypeId) → KeepsBudget (substituteBase σ base)
  | none => .pure _
  | some base => .bind (keepsBudget_substitute σ base) fun _ => .pure _

end Generics.Catalog

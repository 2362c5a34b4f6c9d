/-
Generics.Proofs.Distinct — laws of removing repetitions.

Removing repetitions keeps the first of equal elements. It is easiest to reason
about from the end of a list: a last element is kept exactly if it is new
(`eraseDups_concat`). The other laws follow by induction from the end: the result
has no repetitions, it does not matter whether parts of a list have lost theirs
already, and an injective renaming can be done before or after.
-/
import Mathlib.Data.List.Induction
import Mathlib.Data.List.Nodup

namespace Generics

section

variable {α β : Type} [BEq α] [LawfulBEq α]

/-- A last element is kept exactly if it has not occurred before. -/
theorem eraseDups_concat (l : List α) (a : α) :
    (l ++ [a]).eraseDups = if a ∈ l then l.eraseDups else l.eraseDups ++ [a] := by
  rw [List.eraseDups_append]
  by_cases hmem : a ∈ l <;> simp [List.removeAll, hmem, List.eraseDups_cons]

theorem nodup_eraseDups (l : List α) : l.eraseDups.Nodup := by
  induction l using List.reverseRecOn with
  | nil => simp
  | append_singleton l a ih =>
    rw [eraseDups_concat]
    split
    · exact ih
    · rename_i hnew
      refine List.nodup_append.mpr ⟨ih, by simp, ?_⟩
      intro x hx y hy heq
      rw [List.mem_singleton] at hy
      subst hy heq
      exact hnew (List.mem_eraseDups.mp hx)

theorem eraseDups_of_nodup {l : List α} (h : l.Nodup) : l.eraseDups = l := by
  induction l using List.reverseRecOn with
  | nil => rfl
  | append_singleton l a ih =>
    obtain ⟨hl, -, hnew⟩ := List.nodup_append.mp h
    have ha : a ∉ l := fun ha => hnew a ha a (List.mem_singleton_self a) rfl
    rw [eraseDups_concat, if_neg ha, ih hl]

/-- What is appended does not disturb what was there. -/
theorem eraseDups_isPrefix (l m : List α) : l.eraseDups <+: (l ++ m).eraseDups := by
  rw [List.eraseDups_append]
  exact List.prefix_append _ _

/-! ## Removing repetitions in parts -/

theorem eraseDups_append_eraseDups (l m : List α) :
    (l ++ m.eraseDups).eraseDups = (l ++ m).eraseDups := by
  induction m using List.reverseRecOn with
  | nil => rfl
  | append_singleton m a ih =>
    rw [eraseDups_concat, ← List.append_assoc, eraseDups_concat]
    by_cases hm : a ∈ m
    · rw [if_pos hm, if_pos (List.mem_append_right l hm), ih]
    · rw [if_neg hm, ← List.append_assoc, eraseDups_concat, ih]
      simp only [List.mem_append, List.mem_eraseDups]

theorem eraseDups_eraseDups_append (l m : List α) :
    (l.eraseDups ++ m).eraseDups = (l ++ m).eraseDups := by
  induction m using List.reverseRecOn with
  | nil => rw [List.append_nil, List.append_nil, eraseDups_of_nodup (nodup_eraseDups l)]
  | append_singleton m a ih =>
    rw [← List.append_assoc, ← List.append_assoc, eraseDups_concat, eraseDups_concat, ih]
    simp only [List.mem_append, List.mem_eraseDups]

/-- Parts of a list may lose their repetitions first. -/
theorem eraseDups_flatMap_eraseDups (l : List β) (f : β → List α) :
    (l.flatMap fun x => (f x).eraseDups).eraseDups = (l.flatMap f).eraseDups := by
  induction l with
  | nil => rfl
  | cons x rest ih =>
    rw [List.flatMap_cons, List.flatMap_cons, eraseDups_eraseDups_append,
      ← eraseDups_append_eraseDups, ih, eraseDups_append_eraseDups]

/-- A list may lose its repetitions before its elements are replaced. -/
theorem eraseDups_map_eraseDups [BEq β] [LawfulBEq β] (l : List β) (f : β → α) :
    (l.eraseDups.map f).eraseDups = (l.map f).eraseDups := by
  induction l using List.reverseRecOn with
  | nil => rfl
  | append_singleton l a ih =>
    rw [eraseDups_concat, List.map_append, List.map_singleton, eraseDups_concat]
    by_cases hmem : a ∈ l
    · rw [if_pos hmem, if_pos (List.mem_map_of_mem hmem), ih]
    · have hiff : f a ∈ l.eraseDups.map f ↔ f a ∈ l.map f := by
        simp only [List.mem_map, List.mem_eraseDups]
      rw [if_neg hmem, List.map_append, List.map_singleton, eraseDups_concat, ih]
      simp only [hiff]

/-- An injective renaming makes no repetitions. -/
theorem eraseDups_map [BEq β] [LawfulBEq β] {f : β → α} (hf : Function.Injective f) (l : List β) :
    (l.map f).eraseDups = l.eraseDups.map f := by
  rw [← eraseDups_map_eraseDups, eraseDups_of_nodup]
  exact (nodup_eraseDups l).map hf

/-! ## The order of first occurrences -/

theorem idxOf_le_of_getElem? {l : List α} {a : α} {i : Nat} (h : l[i]? = some a) :
    l.idxOf a ≤ i := by
  have hmem : a ∈ l.take (i + 1) :=
    List.mem_of_getElem? (i := i) (by rw [List.getElem?_take_of_lt (Nat.lt_succ_self i), h])
  have hlt := (List.mem_take_iff_idxOf_lt (List.mem_of_mem_take hmem)).mp hmem
  omega

/-- The elements that stay are in the order in which they first occur. -/
theorem pairwise_eraseDups (l : List α) :
    l.eraseDups.Pairwise fun a b => l.idxOf a < l.idxOf b := by
  induction l using List.reverseRecOn with
  | nil => simp
  | append_singleton l x ih =>
    have hold : ∀ {a}, a ∈ l.eraseDups → (l ++ [x]).idxOf a = l.idxOf a := fun ha => by
      rw [List.idxOf_append, if_pos (List.mem_eraseDups.mp ha)]
    have hkept : l.eraseDups.Pairwise fun a b => (l ++ [x]).idxOf a < (l ++ [x]).idxOf b :=
      ih.imp_of_mem fun ha hb hlt => by rwa [hold ha, hold hb]
    rw [eraseDups_concat]
    split
    · exact hkept
    · rename_i hnew
      refine List.pairwise_append.mpr ⟨hkept, List.pairwise_singleton _ _, ?_⟩
      intro a ha b hb
      rw [List.mem_singleton.mp hb, hold ha, List.idxOf_append, if_neg hnew]
      have hlt := List.idxOf_lt_length_of_mem (List.mem_eraseDups.mp ha)
      omega

end

end Generics

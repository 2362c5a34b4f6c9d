/-
Generics.Distinct — lists without repetitions.

Of equal elements the first stays where it is and the others go. The elements
kept so far are remembered in a hash table, so that long lists are no trouble;
what comes out is `List.eraseDups`.
-/
import Std.Data.HashSet

namespace Generics

variable {α : Type} [BEq α] [Hashable α]

/-- The elements of a list that are not in `seen`, each once. -/
def distinctFrom (seen : Std.HashSet α) : List α → List α
  | [] => []
  | a :: rest =>
    if seen.contains a then distinctFrom seen rest
    else a :: distinctFrom (seen.insert a) rest

/-- The elements of a list, each once, in the order of their first
occurrence. -/
def distinct (as : List α) : List α :=
  distinctFrom ∅ as

theorem distinctFrom_eq [LawfulBEq α] [LawfulHashable α] (seen : Std.HashSet α) (as : List α) :
    distinctFrom seen as = (as.filter fun a => !seen.contains a).eraseDups := by
  induction as generalizing seen with
  | nil => rfl
  | cons a rest ih =>
    rw [distinctFrom]
    cases hseen : seen.contains a with
    | true =>
      rw [if_pos rfl, ih, List.filter_cons_of_neg (by simp [hseen])]
    | false =>
      rw [if_neg Bool.false_ne_true, ih, List.filter_cons_of_pos (by simp [hseen]),
        List.eraseDups_cons, List.filter_filter]
      congr 3
      funext b
      rw [Std.HashSet.contains_insert, Bool.not_or, BEq.comm (a := b) (b := a)]

/-- Only repetitions are left out. -/
theorem distinct_eq_eraseDups [LawfulBEq α] [LawfulHashable α] (as : List α) :
    distinct as = as.eraseDups := by
  rw [distinct, distinctFrom_eq]
  exact congrArg List.eraseDups (List.filter_eq_self.mpr fun a _ => by simp)

end Generics

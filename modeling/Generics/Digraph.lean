/-
Generics.Digraph — depth-first search of a directed graph on numbers.

The graph has the vertices below a bound and gives each vertex a list of
successors. The search either meets a vertex that is still being visited, which
lies on a cycle, or leaves every vertex after all of its successors; the order
in which vertices are left is the answer.

The work still to do is an explicit list of tasks, so the search runs in
constant stack space however long the paths are.
-/
namespace Generics.Digraph

/-- How far the search has come with a vertex. -/
inductive Mark where
  | unseen
  /-- Entered and not left yet. -/
  | active
  | done
  deriving DecidableEq, Repr

/-- What remains to be done. -/
inductive Task where
  | enter (vertex : Nat)
  | leave (vertex : Nat)
  deriving DecidableEq, Repr

/-- The number of vertices that the search has not entered. -/
def unseenCount (marks : Array Mark) : Nat :=
  marks.countP (· == .unseen)

/-- Entering a vertex leaves one vertex fewer to enter. -/
theorem unseenCount_set_active {marks : Array Mark} {v : Nat} (h : marks[v]? = some .unseen) :
    unseenCount (marks.setIfInBounds v .active) < unseenCount marks := by
  obtain ⟨hv, hm⟩ := Array.getElem?_eq_some_iff.mp h
  have hunseen : (marks[v] == Mark.unseen) = true := by rw [hm]; rfl
  have hactive : ¬(Mark.active == Mark.unseen) = true := by decide
  have hpos : 0 < marks.countP (· == Mark.unseen) :=
    Array.countP_pos_iff.mpr ⟨marks[v], Array.getElem_mem hv, hunseen⟩
  unfold unseenCount
  rw [Array.setIfInBounds_def, dif_pos hv, Array.countP_set hv, if_pos hunseen, if_neg hactive]
  omega

/-- Leaving a vertex leaves no more vertices to enter. -/
theorem unseenCount_set_done (marks : Array Mark) (v : Nat) :
    unseenCount (marks.setIfInBounds v .done) ≤ unseenCount marks := by
  have hdone : ¬(Mark.done == Mark.unseen) = true := by decide
  unfold unseenCount
  by_cases hv : v < marks.size
  · rw [Array.setIfInBounds_def, dif_pos hv, Array.countP_set hv, if_neg hdone]
    exact Nat.sub_le _ _
  · exact Nat.le_of_eq (by rw [Array.setIfInBounds_eq_of_size_le (Nat.le_of_not_lt hv)])

/-- Works off tasks. `left` holds the vertices left so far. The answer is all
vertices in the order in which they are left, or the first vertex that is
entered while it is active. -/
def search (successors : Nat → List Nat) (marks : Array Mark) (left : Array Nat) :
    List Task → Except Nat (Array Nat)
  | [] => .ok left
  | .leave v :: rest => search successors (marks.setIfInBounds v .done) (left.push v) rest
  | .enter v :: rest =>
    match h : marks[v]? with
    | some .active => .error v
    | some .unseen =>
      search successors (marks.setIfInBounds v .active) left
        ((successors v).map .enter ++ .leave v :: rest)
    | some .done | none => search successors marks left rest
termination_by tasks => (unseenCount marks, tasks.length)
decreasing_by
  · rcases Nat.lt_or_eq_of_le (unseenCount_set_done marks v) with hlt | heq
    · exact Prod.Lex.left _ _ hlt
    · rw [heq]
      exact Prod.Lex.right _ (Nat.lt_succ_self _)
  · exact Prod.Lex.left _ _ (unseenCount_set_active h)
  · exact Prod.Lex.right _ (Nat.lt_succ_self _)
  · exact Prod.Lex.right _ (Nat.lt_succ_self _)

/-- The vertices below `bound`, each after all of its successors, or a vertex
on a cycle. Vertices are tried in increasing order, successors in the order
given. -/
def finishOrder (bound : Nat) (successors : Nat → List Nat) : Except Nat (Array Nat) :=
  search successors (Array.replicate bound .unseen) #[] ((List.range bound).map .enter)

end Generics.Digraph

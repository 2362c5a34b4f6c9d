/-
Generics.Proofs.Digraph — depth-first search finds a cycle or an order.

If the search ends at a vertex, that vertex lies on a cycle (`mem_cycle_of_error`).
If it ends with an order, every vertex is in it once and after its successors
(`finished_of_ok`), so the places in the order rank the vertices
(`exists_rank_of_ok`) and there is no cycle.

Both follow from one invariant of the search. The vertices with a pending
`leave` are the active ones, and each of them is a successor of the next one
below it: that is the path that closes a cycle. A successor of an active vertex
is done or still waits above it, so a vertex is left after its successors.
-/
import Mathlib.Logic.Relation
import Generics.Digraph

namespace Generics.Digraph

open Relation

/-- `v` is a successor of `u`. -/
def Edge (successors : Nat → List Nat) (u v : Nat) : Prop :=
  v ∈ successors u

/-- Vertices in an order in which each comes after its successors below the bound. -/
def Ordered (successors : Nat → List Nat) (bound : Nat) (order : List Nat) : Prop :=
  ∀ before v after, order = before ++ v :: after → ∀ w ∈ successors v, w < bound → w ∈ before

/-- An order of all vertices below the bound. -/
structure Finished (successors : Nat → List Nat) (bound : Nat) (order : List Nat) : Prop where
  complete : ∀ v, v ∈ order ↔ v < bound
  nodup : order.Nodup
  ordered : Ordered successors bound order

/-! ## 1. Tasks -/

/-- The vertex that a task is about. -/
def Task.vertex : Task → Nat
  | enter v => v
  | leave v => v

/-- The vertices that are to be left, the one entered last first. -/
def trail : List Task → List Nat
  | [] => []
  | .enter _ :: rest => trail rest
  | .leave v :: rest => v :: trail rest

/-- Each task is about a successor of the vertex to be left next after it. -/
def Chained (successors : Nat → List Nat) : List Task → Prop
  | [] => True
  | task :: rest =>
    (∀ u ∈ (trail rest).head?, Edge successors u task.vertex) ∧ Chained successors rest

/-- Each vertex to be left has only successors that are done, or `above`, or
about to be met before it is left. -/
def Covered (successors : Nat → List Nat) (marks : Array Mark) : List Nat → List Task → Prop
  | _, [] => True
  | above, .enter v :: rest => Covered successors marks (v :: above) rest
  | above, .leave v :: rest =>
    (∀ w ∈ successors v, w < marks.size → marks[w]? = some .done ∨ w ∈ above) ∧
      Covered successors marks (v :: above) rest

section

variable {successors : Nat → List Nat} {marks marks' : Array Mark} {tasks rest : List Task}
  {above above' : List Nat} {v : Nat}

theorem trail_append_enter (vs : List Nat) (rest : List Task) :
    trail (vs.map .enter ++ rest) = trail rest := by
  induction vs with
  | nil => rfl
  | cons v vs ih => exact ih

theorem Chained.append_enter {vs : List Nat} (hrest : Chained successors rest)
    (hvs : ∀ u ∈ (trail rest).head?, ∀ v ∈ vs, Edge successors u v) :
    Chained successors (vs.map .enter ++ rest) := by
  induction vs with
  | nil => exact hrest
  | cons v vs ih =>
    rw [List.map_cons, List.cons_append]
    refine ⟨?_, ih fun u hu w hw => hvs u hu w (List.mem_cons_of_mem _ hw)⟩
    rw [trail_append_enter]
    exact fun u hu => hvs u hu v List.mem_cons_self

/-- The vertex of the first task is reached from every vertex to be left. -/
theorem Chained.transGen {task : Task} (h : Chained successors (task :: rest)) {u : Nat}
    (hu : u ∈ trail rest) : TransGen (Edge successors) u task.vertex := by
  induction rest generalizing task with
  | nil => cases hu
  | cons next rest ih =>
    cases next with
    | enter w => exact ih ⟨h.1, h.2.2⟩ hu
    | leave w =>
      have hedge := h.1 w rfl
      rcases List.mem_cons.mp hu with rfl | hu
      · exact .single hedge
      · exact (ih h.2 hu).tail hedge

theorem Covered.mono (hsize : marks'.size = marks.size)
    (h : ∀ w < marks.size, marks[w]? = some .done ∨ w ∈ above →
      marks'[w]? = some .done ∨ w ∈ above')
    (hcov : Covered successors marks above tasks) : Covered successors marks' above' tasks := by
  induction tasks generalizing above above' with
  | nil => trivial
  | cons task rest ih =>
    have hnext : ∀ v, ∀ w < marks.size, marks[w]? = some .done ∨ w ∈ v :: above →
        marks'[w]? = some .done ∨ w ∈ v :: above' := by
      intro v w hw hor
      rcases hor with hdone | hmem
      · exact (h w hw (.inl hdone)).imp_right (List.mem_cons_of_mem _)
      · rcases List.mem_cons.mp hmem with rfl | hmem
        · exact .inr List.mem_cons_self
        · exact (h w hw (.inr hmem)).imp_right (List.mem_cons_of_mem _)
    cases task with
    | enter v => exact ih (hnext v) hcov
    | leave v =>
      refine ⟨fun w hw hlt => ?_, ih (hnext v) hcov.2⟩
      rw [hsize] at hlt
      exact h w hlt (hcov.1 w hw hlt)

theorem covered_append_enter (vs : List Nat) :
    Covered successors marks above (vs.map .enter ++ rest) ↔
      Covered successors marks (vs.reverse ++ above) rest := by
  induction vs generalizing above with
  | nil => rfl
  | cons v vs ih =>
    rw [List.reverse_cons, List.append_assoc]
    exact ih

end

/-! ## 2. The invariant -/

/-- What holds between two steps of the search. -/
structure SearchState (successors : Nat → List Nat) (marks : Array Mark) (left : List Nat)
    (tasks : List Task) : Prop where
  active : ∀ v, v ∈ trail tasks ↔ marks[v]? = some .active
  trail_nodup : (trail tasks).Nodup
  done : ∀ v, v ∈ left ↔ marks[v]? = some .done
  left_nodup : left.Nodup
  ordered : Ordered successors marks.size left
  waiting : ∀ v, marks[v]? = some .unseen → .enter v ∈ tasks
  chained : Chained successors tasks
  covered : Covered successors marks [] tasks

theorem getElem?_set {marks : Array Mark} {v : Nat} {m : Mark} (hm : marks[v]? = some m)
    (mark : Mark) (w : Nat) :
    (marks.setIfInBounds v mark)[w]? = if w = v then some mark else marks[w]? := by
  obtain ⟨hlt, -⟩ := Array.getElem?_eq_some_iff.mp hm
  rw [Array.getElem?_setIfInBounds]
  by_cases hw : v = w
  · rw [if_pos hw, if_pos hw.symm, if_pos (hw ▸ hlt)]
  · rw [if_neg hw, if_neg (Ne.symm hw)]

theorem Ordered.concat {successors : Nat → List Nat} {bound : Nat} {order : List Nat} {v : Nat}
    (h : Ordered successors bound order) (hv : ∀ w ∈ successors v, w < bound → w ∈ order) :
    Ordered successors bound (order ++ [v]) := by
  intro before u after heq w hw hlt
  rcases List.eq_nil_or_concat after with rfl | ⟨after', x, rfl⟩
  · obtain ⟨rfl, hu⟩ := List.append_inj' heq rfl
    cases hu
    exact hv w hw hlt
  · rw [List.concat_eq_append, ← List.cons_append, ← List.append_assoc] at heq
    obtain ⟨rfl, -⟩ := List.append_inj' heq rfl
    exact h before u after' rfl w hw hlt

section

variable {successors : Nat → List Nat} {marks : Array Mark} {left : List Nat}
  {rest : List Task} {v : Nat}

/-- Entering a vertex that is done, or not below the bound, changes nothing. -/
theorem SearchState.skip (h : SearchState successors marks left (.enter v :: rest))
    (hv : v < marks.size → marks[v]? = some .done) : SearchState successors marks left rest where
  active := h.active
  trail_nodup := h.trail_nodup
  done := h.done
  left_nodup := h.left_nodup
  ordered := h.ordered
  waiting := by
    intro w hw
    rcases List.mem_cons.mp (h.waiting w hw) with heq | hmem
    · cases heq
      obtain ⟨hlt, -⟩ := Array.getElem?_eq_some_iff.mp hw
      rw [hv hlt] at hw
      cases hw
    · exact hmem
  chained := h.chained.2
  covered := by
    refine h.covered.mono rfl fun w hw hor => ?_
    rcases hor with hdone | hmem
    · exact .inl hdone
    · rw [List.mem_singleton] at hmem
      subst hmem
      exact .inl (hv hw)

/-- Entering a vertex for the first time makes it active, with its successors
to be entered before it is left. -/
theorem SearchState.enter (h : SearchState successors marks left (.enter v :: rest))
    (hv : marks[v]? = some .unseen) :
    SearchState successors (marks.setIfInBounds v .active) left
      ((successors v).map .enter ++ .leave v :: rest) := by
  have hmark := getElem?_set hv .active
  have hsize : (marks.setIfInBounds v .active).size = marks.size := by simp
  have htrail : trail ((successors v).map .enter ++ .leave v :: rest) = v :: trail rest :=
    trail_append_enter _ _
  refine
    { active := fun w => ?_
      trail_nodup := ?_
      done := fun w => ?_
      left_nodup := h.left_nodup
      ordered := by rw [hsize]; exact h.ordered
      waiting := fun w hw => ?_
      chained := ?_
      covered := ?_ }
  · rw [htrail, hmark, List.mem_cons]
    split
    · rename_i heq
      simp [heq]
    · rename_i hne
      rw [← h.active w]
      simp [trail, hne]
  · rw [htrail]
    refine List.nodup_cons.mpr ⟨fun hmem => ?_, h.trail_nodup⟩
    have hactive := (h.active v).mp hmem
    rw [hv] at hactive
    cases hactive
  · rw [hmark, h.done]
    split
    · rename_i heq
      subst heq
      rw [hv]
      simp
    · exact Iff.rfl
  · rw [hmark] at hw
    split at hw
    · cases hw
    · rename_i hne
      rcases List.mem_cons.mp (h.waiting w hw) with heq | hmem
      · cases heq
        exact absurd rfl hne
      · exact List.mem_append_right _ (List.mem_cons_of_mem _ hmem)
  · refine Chained.append_enter ⟨h.chained.1, h.chained.2⟩ ?_
    intro u hu w hw
    cases hu
    exact hw
  · rw [covered_append_enter]
    refine ⟨fun w hw _ => .inr (by simpa using hw), ?_⟩
    refine h.covered.mono hsize fun w _ hor => ?_
    rcases hor with hdone | hmem
    · refine .inl ?_
      rw [hmark, if_neg, hdone]
      rintro rfl
      rw [hv] at hdone
      cases hdone
    · rw [List.mem_singleton] at hmem
      exact .inr (by simp [hmem])

/-- A vertex is left when its successors are done. -/
theorem SearchState.leave (h : SearchState successors marks left (.leave v :: rest)) :
    SearchState successors (marks.setIfInBounds v .done) (left ++ [v]) rest := by
  have hv := (h.active v).mp List.mem_cons_self
  have hmark := getElem?_set hv .done
  have hsize : (marks.setIfInBounds v .done).size = marks.size := by simp
  obtain ⟨hvrest, hnodup⟩ := List.nodup_cons.mp h.trail_nodup
  refine
    { active := fun w => ?_
      trail_nodup := hnodup
      done := fun w => ?_
      left_nodup := ?_
      ordered := ?_
      waiting := fun w hw => ?_
      chained := h.chained.2
      covered := ?_ }
  · rw [hmark]
    split
    · rename_i heq
      subst heq
      simp [hvrest]
    · rename_i hne
      rw [← h.active w]
      simp [trail, hne]
  · rw [hmark, List.mem_append, List.mem_singleton, h.done]
    split
    · rename_i heq
      simp [heq]
    · rename_i hne
      simp [hne]
  · refine List.nodup_append.mpr ⟨h.left_nodup, by simp, ?_⟩
    rintro w hw u hu rfl
    rw [List.mem_singleton] at hu
    subst hu
    rw [h.done, hv] at hw
    cases hw
  · rw [hsize]
    refine h.ordered.concat fun w hw hlt => ?_
    rcases h.covered.1 w hw hlt with hdone | hmem
    · exact (h.done w).mpr hdone
    · cases hmem
  · rw [hmark] at hw
    split at hw
    · cases hw
    · rcases List.mem_cons.mp (h.waiting w hw) with heq | hmem
      · cases heq
      · exact hmem
  · refine h.covered.2.mono hsize fun w _ hor => ?_
    rw [hmark]
    split
    · exact .inl rfl
    · rename_i hne
      rcases hor with hdone | hmem
      · exact .inl hdone
      · rw [List.mem_singleton] at hmem
        exact absurd hmem hne

end

/-! ## 3. The search -/

/-- From every state the search comes to a cycle or to an order. -/
theorem SearchState.search {successors : Nat → List Nat} {marks : Array Mark} {left : Array Nat}
    {tasks : List Task} (h : SearchState successors marks left.toList tasks) :
    (∀ v, Digraph.search successors marks left tasks = .error v →
      TransGen (Edge successors) v v) ∧
      ∀ order, Digraph.search successors marks left tasks = .ok order →
        Finished successors marks.size order.toList := by
  fun_induction Digraph.search successors marks left tasks with
  | case1 marks left =>
    refine ⟨nofun, fun order horder => ?_⟩
    cases horder
    refine ⟨fun v => ?_, h.left_nodup, h.ordered⟩
    rw [h.done]
    refine ⟨fun hv => (Array.getElem?_eq_some_iff.mp hv).1, fun hv => ?_⟩
    -- nothing is left to do, so no vertex is unseen or active
    cases hmark : marks[v] with
    | unseen => exact absurd (h.waiting v (Array.getElem?_eq_some_iff.mpr ⟨hv, hmark⟩)) nofun
    | active => exact absurd ((h.active v).mpr (Array.getElem?_eq_some_iff.mpr ⟨hv, hmark⟩)) nofun
    | done => exact Array.getElem?_eq_some_iff.mpr ⟨hv, hmark⟩
  | case2 marks left v rest ih =>
    have hnext := h.leave
    rw [← Array.toList_push] at hnext
    simpa using ih hnext
  | case3 marks left v rest hv =>
    refine ⟨fun u hu => ?_, nofun⟩
    cases hu
    exact h.chained.transGen ((h.active v).mpr hv)
  | case4 marks left v rest hv ih => simpa using ih (h.enter hv)
  | case5 marks left v rest hv ih => exact ih (h.skip fun _ => hv)
  | case6 marks left v rest hv ih =>
    refine ih (h.skip fun hlt => ?_)
    rw [Array.getElem?_eq_getElem hlt] at hv
    cases hv

/-- At the start nothing is done and every vertex is to be entered. -/
theorem searchState_start (successors : Nat → List Nat) (bound : Nat) :
    SearchState successors (Array.replicate bound .unseen) []
      ((List.range bound).map .enter) := by
  have hunseen : ∀ (v : Nat) m, (Array.replicate bound Mark.unseen)[v]? = some m → m = .unseen := by
    intro v m hm
    rw [Array.getElem?_replicate] at hm
    split at hm
    · exact (Option.some.inj hm).symm
    · cases hm
  have htrail : trail ((List.range bound).map .enter) = [] := by
    have h := trail_append_enter (List.range bound) []
    rwa [List.append_nil] at h
  refine
    { active := fun v => ?_
      trail_nodup := by rw [htrail]; exact .nil
      done := fun v => ?_
      left_nodup := .nil
      ordered := fun before v after heq => by simp at heq
      waiting := fun v hv => ?_
      chained := ?_
      covered := ?_ }
  · rw [htrail]
    exact ⟨nofun, fun hv => by cases hunseen v _ hv⟩
  · exact ⟨nofun, fun hv => by cases hunseen v _ hv⟩
  · obtain ⟨hlt, -⟩ := Array.getElem?_eq_some_iff.mp hv
    rw [Array.size_replicate] at hlt
    exact List.mem_map_of_mem (List.mem_range.mpr hlt)
  · have h : Chained successors ((List.range bound).map .enter ++ []) :=
      Chained.append_enter trivial nofun
    rwa [List.append_nil] at h
  · have h : Covered successors (Array.replicate bound Mark.unseen) []
        ((List.range bound).map .enter ++ []) := (covered_append_enter _).mpr trivial
    rwa [List.append_nil] at h

/-- A vertex that the search reports lies on a cycle. -/
theorem mem_cycle_of_error {bound : Nat} {successors : Nat → List Nat} {v : Nat}
    (h : finishOrder bound successors = .error v) : TransGen (Edge successors) v v :=
  (searchState_start successors bound).search.1 v h

/-- An order that the search answers has all vertices, each once and after its
successors. -/
theorem finished_of_ok {bound : Nat} {successors : Nat → List Nat} {order : Array Nat}
    (h : finishOrder bound successors = .ok order) : Finished successors bound order.toList := by
  have hfinished := (searchState_start successors bound).search.2 order h
  rwa [Array.size_replicate] at hfinished

/-- The place in the order goes down along an edge. -/
theorem Finished.idxOf_lt {successors : Nat → List Nat} {bound : Nat} {order : List Nat}
    (h : Finished successors bound order) {v w : Nat} (hv : v < bound) (hw : w < bound)
    (hedge : Edge successors v w) : order.idxOf w < order.idxOf v := by
  obtain ⟨before, after, hsplit, hnot⟩ := List.eq_append_cons_of_mem ((h.complete v).mpr hv)
  have hmem := h.ordered before v after hsplit w hedge hw
  have hidx : order.idxOf v = before.length := by
    rw [hsplit, List.idxOf_append, if_neg hnot, List.idxOf_cons_self, Nat.zero_add]
  rw [hidx, hsplit, List.idxOf_append, if_pos hmem]
  exact List.idxOf_lt_length_of_mem hmem

theorem Finished.length_eq {successors : Nat → List Nat} {bound : Nat} {order : List Nat}
    (h : Finished successors bound order) : order.length = bound := by
  have hperm : order.Perm (List.range bound) :=
    (List.perm_ext_iff_of_nodup h.nodup List.nodup_range).mpr fun v => by
      rw [h.complete, List.mem_range]
  rw [hperm.length_eq, List.length_range]

/-- If the search answers an order, vertices have ranks up to the bound that go
down along edges. -/
theorem exists_rank_of_ok {bound : Nat} {successors : Nat → List Nat} {order : Array Nat}
    (hbound : ∀ v w, Edge successors v w → v < bound ∧ w < bound)
    (h : finishOrder bound successors = .ok order) :
    ∃ rank : Nat → Nat, (∀ v, rank v ≤ bound) ∧
      ∀ v w, Edge successors v w → rank w < rank v := by
  have hfinished := finished_of_ok h
  refine ⟨order.toList.idxOf, fun v => ?_, fun v w hedge => ?_⟩
  · rw [← hfinished.length_eq]
    exact List.idxOf_le_length
  · obtain ⟨hv, hw⟩ := hbound v w hedge
    exact hfinished.idxOf_lt hv hw hedge

end Generics.Digraph

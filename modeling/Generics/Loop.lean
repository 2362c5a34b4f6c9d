/-
Generics.Loop — loops that take turns until one gives the answer.

Nothing limits the number of turns. Where they go on forever the value of `loop`
is not determined, so what is known of a loop begins with the fact that it halts
(`Halts.loop_eq`).
-/
namespace Generics

variable {σ α : Type} {turn : σ → σ ⊕ α} {state next : σ} {answer : α}

/-- Takes turns, each from the state that the one before has left, until a turn gives
the answer. -/
def loop [Nonempty α] (turn : σ → σ ⊕ α) (state : σ) : α :=
  Id.run (repeatM (fun state => pure (turn state)) state)

theorem loop_of_inl [Nonempty α] (h : turn state = .inl next) :
    loop turn state = loop turn next := by
  rw [loop, repeatM_eq_of_monadTail, repeatM.body, h]
  rfl

theorem loop_of_inr [Nonempty α] (h : turn state = .inr answer) :
    loop turn state = answer := by
  rw [loop, repeatM_eq_of_monadTail, repeatM.body, h]
  rfl

/-- The turns from a state come to an end, with this answer. -/
inductive Halts (turn : σ → σ ⊕ α) : σ → α → Prop
  | last {state : σ} {answer : α} (h : turn state = .inr answer) : Halts turn state answer
  | next {state next : σ} {answer : α} (h : turn state = .inl next)
      (hnext : Halts turn next answer) : Halts turn state answer

theorem Halts.loop_eq [Nonempty α] (h : Halts turn state answer) : loop turn state = answer := by
  induction h with
  | last h => exact loop_of_inr h
  | next h _ ih => rw [loop_of_inl h, ih]

/-- What holds at the start and is kept by every turn holds when the answer is given. -/
theorem Halts.invariant {P : σ → Prop} (h : Halts turn state answer) (hstart : P state)
    (hturn : ∀ {state next}, P state → turn state = .inl next → P next) :
    ∃ final, P final ∧ turn final = .inr answer := by
  induction h with
  | last h => exact ⟨_, hstart, h⟩
  | next h _ ih => exact ih (hturn hstart h)

end Generics

/-
Generics.Proofs.TypeExpr.Reading — the reader accepts what the grammar allows.

The reader is looked at one character at a time, as an automaton. `Moves` says what a
character does to its state; nothing below opens `State.step` again. Going through a
text that spells an expression leads to that expression (`readsBack`). In the other
direction, the characters read so far always spell what the state holds: the open
applications, and the last expression or a part of its name (`Holds`), all of it within
the grammar (`State.Fits`).
-/
import Generics.Proofs.TypeExpr.Automaton
import Generics.Proofs.TypeExpr.Grammar

namespace Generics.TypeExpr

/-! ## 1. Steps -/

namespace Phase

/-- The name that a bracket after this phase would apply. -/
def name? : Phase → Option String
  | inName spelled => some (String.ofList spelled.reverse)
  | named name => some name
  | _ => none

/-- The phase after a blank, which ends a name. -/
def ended : Phase → Phase
  | inName spelled => .named (String.ofList spelled.reverse)
  | phase => phase

@[simp] theorem complete?_ended (phase : Phase) : phase.ended.complete? = phase.complete? := by
  cases phase <;> rfl

@[simp] theorem name?_ended (phase : Phase) : phase.ended.name? = phase.name? := by
  cases phase <;> rfl

theorem complete?_of_name? {phase : Phase} {name : String} (h : phase.name? = some name) :
    phase.complete? = some (.mk name []) := by
  cases phase <;> simp_all [name?, complete?]

end Phase

/-- What one character can do. -/
inductive Moves : State → Char → State → Prop
  | skip {stack : List OpenApplication} {c : Char} (hc : Blank c) :
      Moves ⟨stack, .awaiting⟩ c ⟨stack, .awaiting⟩
  | begin {stack : List OpenApplication} {c : Char} (hc : StartsName c) :
      Moves ⟨stack, .awaiting⟩ c ⟨stack, .inName [c]⟩
  | extend {stack : List OpenApplication} {spelled : List Char} {c : Char}
      (hc : ContinuesName c) : Moves ⟨stack, .inName spelled⟩ c ⟨stack, .inName (c :: spelled)⟩
  | rest {stack : List OpenApplication} {phase : Phase} {e : TypeExpr} {c : Char}
      (he : phase.complete? = some e) (hc : Blank c) :
      Moves ⟨stack, phase⟩ c ⟨stack, phase.ended⟩
  | enter {stack : List OpenApplication} {phase : Phase} {name : String}
      (hname : phase.name? = some name) (hroom : stack.length < Limits.nesting) :
      Moves ⟨stack, phase⟩ '<' ⟨⟨name, []⟩ :: stack, .awaiting⟩
  | next {app : OpenApplication} {outer : List OpenApplication} {phase : Phase} {e : TypeExpr}
      (he : phase.complete? = some e) :
      Moves ⟨app :: outer, phase⟩ ',' ⟨⟨app.name, e :: app.done⟩ :: outer, .awaiting⟩
  | leave {app : OpenApplication} {outer : List OpenApplication} {phase : Phase} {e : TypeExpr}
      (he : phase.complete? = some e) :
      Moves ⟨app :: outer, phase⟩ '>' ⟨outer, .closed (.mk app.name (app.done.reverse ++ [e]))⟩

theorem not_isNameRest_of_blank {c : Char} (hc : Blank c) : isNameRest c = false := by
  rcases hc with rfl | rfl | rfl | rfl | rfl <;> decide

theorem not_isAsciiBlank_of_startsName {c : Char} (hc : StartsName c) :
    Text.isAsciiBlank c = false := by
  rw [Bool.eq_false_iff, ne_eq, isAsciiBlank_iff]
  intro hblank
  have hrest := isNameRest_iff.mpr (.inl hc)
  rw [not_isNameRest_of_blank hblank] at hrest
  cases hrest

section

variable {s s' : State} {stack : List OpenApplication} {phase : Phase} {name : String}
  {e : TypeExpr} {c : Char}

theorem moves_of_openBracket (hname : phase.name? = some name)
    (h : State.openBracket ⟨stack, phase⟩ name = .ok s') : Moves ⟨stack, phase⟩ '<' s' := by
  rw [State.openBracket] at h
  split at h
  · rename_i hroom
    cases h
    exact .enter hname hroom
  · cases h

theorem moves_of_separate (he : phase.complete? = some e)
    (h : State.separate ⟨stack, phase⟩ e c = .ok s') : Moves ⟨stack, phase⟩ c s' := by
  cases stack with
  | nil => cases h
  | cons app outer =>
    simp only [State.separate, beq_iff_eq] at h
    split at h
    · rename_i hc
      cases h
      cases hc
      exact .next he
    · split at h
      · rename_i hc
        cases h
        cases hc
        rw [List.reverse_cons]
        exact .leave he
      · cases h

/-- Whatever a step does, `Moves` allows. -/
theorem moves_of_step (h : s.step c = .ok s') : Moves s c s' := by
  obtain ⟨stack, phase⟩ := s
  cases phase with
  | awaiting =>
    simp only [State.step] at h
    split at h
    · rename_i hc
      cases h
      exact .skip (isAsciiBlank_iff.mp hc)
    · split at h
      · rename_i hc
        cases h
        exact .begin (isNameStart_iff.mp hc)
      · cases h
  | inName spelled =>
    simp only [State.step, beq_iff_eq] at h
    split at h
    · rename_i hc
      cases h
      exact .extend (isNameRest_iff.mp hc)
    · split at h
      · rename_i hc
        cases h
        exact .rest rfl (isAsciiBlank_iff.mp hc)
      · split at h
        · subst c
          exact moves_of_openBracket rfl h
        · exact moves_of_separate rfl h
  | named name =>
    simp only [State.step, beq_iff_eq] at h
    split at h
    · rename_i hc
      cases h
      exact .rest rfl (isAsciiBlank_iff.mp hc)
    · split at h
      · subst c
        exact moves_of_openBracket rfl h
      · exact moves_of_separate rfl h
  | closed e =>
    simp only [State.step] at h
    split at h
    · rename_i hc
      cases h
      exact .rest rfl (isAsciiBlank_iff.mp hc)
    · exact moves_of_separate rfl h

/-- Whatever `Moves` allows, a step does. The classes of characters do not overlap, so the
order in which the step looks at them does not matter. -/
theorem step_of_moves (h : Moves s c s') : s.step c = .ok s' := by
  have hmark : ∀ c, c = '<' ∨ c = ',' ∨ c = '>' →
      isNameRest c = false ∧ Text.isAsciiBlank c = false := by
    rintro c (rfl | rfl | rfl) <;> decide
  cases h with
  | skip hc => simp [State.step, isAsciiBlank_iff.mpr hc]
  | begin hc =>
    simp [State.step, not_isAsciiBlank_of_startsName hc, isNameStart_iff.mpr hc]
  | extend hc => simp [State.step, isNameRest_iff.mpr hc]
  | @rest stack phase e c he hc =>
    have hblank := isAsciiBlank_iff.mpr hc
    cases phase with
    | awaiting => cases he
    | inName spelled => simp [State.step, Phase.ended, hblank, not_isNameRest_of_blank hc]
    | named name => simp [State.step, Phase.ended, hblank]
    | closed e => simp [State.step, Phase.ended, hblank]
  | @enter stack phase name hname hroom =>
    cases phase <;> cases hname <;> simp [State.step, State.openBracket, hmark, hroom]
  | @next app outer phase e he =>
    cases phase <;> cases he <;> simp [State.step, State.separate, hmark]
  | @leave app outer phase e he =>
    cases phase <;> cases he <;> simp [State.step, State.separate, hmark]

end

/-! ## 2. Runs -/

/-- The state after further characters, if none of them is refused. -/
def State.steps (s : State) (text : List Char) : Except Refusal State :=
  text.foldlM State.step s

theorem steps_nil (s : State) : s.steps [] = .ok s := rfl

theorem steps_append {s s₁ s₂ : State} {text text' : List Char} (h : s.steps text = .ok s₁)
    (h' : s₁.steps text' = .ok s₂) : s.steps (text ++ text') = .ok s₂ := by
  rw [State.steps, List.foldlM_append, ← State.steps, h]
  exact h'

theorem steps_cons {s s₁ s₂ : State} {c : Char} {text : List Char} (h : Moves s c s₁)
    (h' : s₁.steps text = .ok s₂) : s.steps (c :: text) = .ok s₂ := by
  rw [State.steps, List.foldlM_cons, step_of_moves h]
  exact h'

/-- What one character keeps, a whole text keeps. -/
theorem steps_invariant {P : List Char → State → Prop}
    (hstep : ∀ {read s c s'}, P read s → Moves s c s' → P (read ++ [c]) s')
    {read text : List Char} {s s' : State} (hs : P read s) (h : s.steps text = .ok s') :
    P (read ++ text) s' := by
  induction text generalizing read s with
  | nil =>
    cases h
    simpa using hs
  | cons c text ih =>
    rw [State.steps, List.foldlM_cons] at h
    cases hnext : s.step c with
    | error refusal =>
      rw [hnext] at h
      cases h
    | ok next =>
      rw [hnext] at h
      simpa using ih (hstep hs (moves_of_step hnext)) h

theorem finish_eq_ok_iff {s : State} {e : TypeExpr} :
    s.finish = .ok e ↔ s.phase.complete? = some e ∧ s.stack = [] := by
  rw [State.finish]
  split <;> simp_all

theorem mapError_eq_ok_iff {ε ε' α : Type} {f : ε → ε'} {x : Except ε α} {a : α} :
    x.mapError f = .ok a ↔ x = .ok a := by
  constructor
  · intro h
    cases x <;> cases h
    rfl
  · rintro rfl
    rfl

theorem readFrom_eq_ok_iff {offset : Nat} {s : State} {text : List Char} {e : TypeExpr} :
    readFrom offset s text = .ok e ↔ ∃ s', s.steps text = .ok s' ∧ s'.finish = .ok e := by
  induction text generalizing offset s with
  | nil =>
    rw [readFrom, mapError_eq_ok_iff, steps_nil]
    simp
  | cons c text ih =>
    rw [readFrom, State.steps, List.foldlM_cons]
    cases hnext : s.step c with
    | ok next => exact ih
    | error refusal =>
      constructor
      · intro h
        cases h
      · rintro ⟨s', h, -⟩
        cases h

theorem read_eq_ok_iff {text : String} {e : TypeExpr} :
    read text = .ok e ↔
      ∃ phase, State.start.steps text.toList = .ok ⟨[], phase⟩ ∧ phase.complete? = some e := by
  rw [read_eq_scan, scan, mapError_eq_ok_iff, readFrom_eq_ok_iff]
  constructor
  · rintro ⟨⟨stack, phase⟩, hsteps, hfinish⟩
    obtain ⟨he, rfl⟩ := finish_eq_ok_iff.mp hfinish
    exact ⟨phase, hsteps, he⟩
  · rintro ⟨phase, hsteps, he⟩
    exact ⟨_, hsteps, finish_eq_ok_iff.mpr ⟨he, rfl⟩⟩

/-! ## 3. Texts of the grammar are read -/

/-- The expression keeps to the grammar where it stands inside so many brackets. -/
structure Fits (e : TypeExpr) (brackets : Nat) : Prop where
  wellNamed : e.WellNamed
  nesting : e.nesting + brackets ≤ Limits.nesting

/-- The arguments stand inside one more bracket. -/
theorem fits_mk_iff {name : String} {args : List TypeExpr} {brackets : Nat} (h : args ≠ []) :
    (mk name args).Fits brackets ↔ IsName name ∧ ∀ a ∈ args, a.Fits (brackets + 1) := by
  obtain ⟨first, hfirst⟩ := List.exists_mem_of_ne_nil args h
  have hnesting : (mk name args).nesting = nestingAll args + 1 := nesting_mk h
  constructor
  · rintro ⟨hnames, hdeep⟩
    obtain ⟨hname, hargs⟩ := wellNamed_mk.mp hnames
    refine ⟨hname, fun a ha => ⟨hargs a ha, ?_⟩⟩
    have hle := nestingAll_le_iff.mp (Nat.le_refl (nestingAll args)) a ha
    omega
  · rintro ⟨hname, hargs⟩
    refine ⟨wellNamed_mk.mpr ⟨hname, fun a ha => (hargs a ha).wellNamed⟩, ?_⟩
    have hle : nestingAll args ≤ Limits.nesting - (brackets + 1) := by
      refine nestingAll_le_iff.mpr fun a ha => ?_
      have := (hargs a ha).nesting
      omega
    have := (hargs first hfirst).nesting
    omega

section

variable (stack : List OpenApplication) {text blanks : List Char}

theorem steps_blanks_awaiting (hblanks : ∀ c ∈ blanks, Blank c) :
    State.steps ⟨stack, .awaiting⟩ blanks = .ok ⟨stack, .awaiting⟩ := by
  induction blanks with
  | nil => rfl
  | cons c rest ih =>
    obtain ⟨hc, hrest⟩ := List.forall_mem_cons.mp hblanks
    exact steps_cons (.skip hc) (ih hrest)

/-- Blanks end a name and otherwise change nothing. -/
theorem steps_blanks_complete {phase : Phase} {e : TypeExpr} (he : phase.complete? = some e)
    (hblanks : ∀ c ∈ blanks, Blank c) :
    ∃ phase', State.steps ⟨stack, phase⟩ blanks = .ok ⟨stack, phase'⟩ ∧
      phase'.complete? = some e ∧ phase'.name? = phase.name? := by
  induction blanks generalizing phase with
  | nil => exact ⟨phase, rfl, he, rfl⟩
  | cons c rest ih =>
    obtain ⟨hc, hrest⟩ := List.forall_mem_cons.mp hblanks
    have hended : phase.ended.complete? = some e := by rw [Phase.complete?_ended, he]
    obtain ⟨phase', hsteps, he', hname⟩ := ih hended hrest
    exact ⟨phase', steps_cons (.rest he hc) hsteps, he', by simpa using hname⟩

theorem steps_name {name : String} (hname : IsName name) :
    ∃ phase, State.steps ⟨stack, .awaiting⟩ name.toList = .ok ⟨stack, phase⟩ ∧
      phase.name? = some name := by
  obtain ⟨first, rest, htext, hfirst, hrest⟩ := hname
  have hmore : ∀ spelled, State.steps ⟨stack, .inName spelled⟩ rest =
      .ok ⟨stack, .inName (rest.reverse ++ spelled)⟩ := by
    clear htext
    induction rest with
    | nil => exact fun spelled => rfl
    | cons c rest ih =>
      intro spelled
      obtain ⟨hc, hrest⟩ := List.forall_mem_cons.mp hrest
      simpa using steps_cons (.extend hc) (ih hrest (c :: spelled))
  refine ⟨.inName (rest.reverse ++ [first]), ?_, ?_⟩
  · rw [htext]
    exact steps_cons (.begin hfirst) (hmore [first])
  · have hname : String.ofList name.toList = name := String.ofList_toList
    simpa [Phase.name?, htext] using hname

/-- A name, with the blanks before it. -/
theorem steps_of_spells_word {name : String} {tokens : List Token} (hname : IsName name)
    (h : Spells text (.word name :: tokens)) :
    ∃ before after phase, text = before ++ after ∧ Spells after tokens ∧
      State.steps ⟨stack, .awaiting⟩ before = .ok ⟨stack, phase⟩ ∧ phase.name? = some name := by
  cases h with
  | @token blanks after _ _ hblanks h =>
    obtain ⟨phase, hsteps, hphase⟩ := steps_name stack hname
    exact ⟨_, after, phase, rfl, h, steps_append (steps_blanks_awaiting stack hblanks) hsteps,
      hphase⟩

/-- The blanks before a bracket or a comma. -/
theorem steps_of_spells_mark {phase : Phase} {e : TypeExpr} {token : Token} {c : Char}
    {tokens : List Token} (he : phase.complete? = some e) (hc : token.text = [c])
    (h : Spells text (token :: tokens)) :
    ∃ blanks after phase', text = blanks ++ c :: after ∧ Spells after tokens ∧
      State.steps ⟨stack, phase⟩ blanks = .ok ⟨stack, phase'⟩ ∧ phase'.complete? = some e ∧
      phase'.name? = phase.name? := by
  cases h with
  | @token blanks after _ _ hblanks h =>
    obtain ⟨phase', hsteps, he', hname⟩ := steps_blanks_complete stack he hblanks
    exact ⟨blanks, after, phase', by simp [hc], h, hsteps, he', hname⟩

/-- Whether the texts of an expression lead to it, below any open brackets. -/
def ReadsBack (e : TypeExpr) : Prop :=
  ∀ (stack : List OpenApplication) {text : List Char}, e.Fits stack.length →
    Spells text e.tokens →
    ∃ phase, State.steps ⟨stack, .awaiting⟩ text = .ok ⟨stack, phase⟩ ∧ phase.complete? = some e

/-- The rest of a list of arguments, after the argument `a`. -/
theorem steps_of_spells_after {name : String} {done rest : List TypeExpr} {phase : Phase}
    {a : TypeExpr} (ha : phase.complete? = some a) (hback : ∀ e ∈ rest, e.ReadsBack)
    (hfits : ∀ e ∈ rest, e.Fits (stack.length + 1)) (h : Spells text (tokensAfter rest)) :
    ∃ phase', State.steps ⟨⟨name, done⟩ :: stack, phase⟩ text = .ok ⟨stack, phase'⟩ ∧
      phase'.complete? = some (.mk name (done.reverse ++ a :: rest)) := by
  induction rest generalizing done phase a text with
  | nil =>
    rw [tokensAfter] at h
    obtain ⟨blanks, after, phase', rfl, hafter, hsteps, ha', -⟩ :=
      steps_of_spells_mark (⟨name, done⟩ :: stack) ha (c := '>') rfl h
    cases hafter with
    | blanks hblanks =>
      have hclosed : (Phase.closed (.mk name (done.reverse ++ [a]))).complete? =
          some (.mk name (done.reverse ++ [a])) := rfl
      obtain ⟨phase'', hsteps', he, -⟩ := steps_blanks_complete stack hclosed hblanks
      exact ⟨phase'', steps_append hsteps (steps_cons (.leave ha') hsteps'), he⟩
  | cons e rest ih =>
    rw [tokensAfter] at h
    obtain ⟨blanks, after, phase', rfl, hafter, hsteps, ha', -⟩ :=
      steps_of_spells_mark (⟨name, done⟩ :: stack) ha (c := ',') rfl h
    obtain ⟨text, text', rfl, htext, htext'⟩ := hafter.exists_of_append
    obtain ⟨hback, hbacks⟩ := List.forall_mem_cons.mp hback
    obtain ⟨hfit, hfits⟩ := List.forall_mem_cons.mp hfits
    obtain ⟨phaseE, hstepsE, he⟩ := hback (⟨name, a :: done⟩ :: stack) hfit htext
    obtain ⟨phase'', hsteps'', hdone⟩ := ih he hbacks hfits htext'
    refine ⟨phase'', steps_append hsteps (steps_cons (.next ha') (steps_append hstepsE hsteps'')),
      ?_⟩
    simpa using hdone

end

/-- A text that spells an expression leads to it. -/
theorem readsBack (e : TypeExpr) : e.ReadsBack := by
  induction e with
  | mk name args ih =>
    intro stack text hfits h
    cases args with
    | nil =>
      -- a bare name, and blanks to the end
      obtain ⟨hname, -⟩ := wellNamed_mk.mp hfits.wellNamed
      rw [tokens] at h
      obtain ⟨before, after, phase, rfl, hafter, hsteps, hphase⟩ :=
        steps_of_spells_word stack hname h
      cases hafter with
      | blanks hblanks =>
        obtain ⟨phase', hsteps', he, -⟩ :=
          steps_blanks_complete stack (Phase.complete?_of_name? hphase) hblanks
        exact ⟨phase', steps_append hsteps hsteps', he⟩
    | cons a rest =>
      -- the name, its bracket, the first argument below it, and the other arguments
      obtain ⟨hname, hargs⟩ := (fits_mk_iff (List.cons_ne_nil a rest)).mp hfits
      have hroom : stack.length < Limits.nesting := by
        have := (hargs a List.mem_cons_self).nesting
        omega
      rw [tokens] at h
      obtain ⟨before, after, phase, rfl, hafter, hsteps, hphase⟩ :=
        steps_of_spells_word stack hname h
      obtain ⟨blanks, inner, phase', rfl, hinner, hsteps', -, hphase'⟩ :=
        steps_of_spells_mark stack (Phase.complete?_of_name? hphase) (c := '<') rfl hafter
      rw [hphase] at hphase'
      obtain ⟨text, text', rfl, htext, htext'⟩ := hinner.exists_of_append
      obtain ⟨ha, hrest⟩ := List.forall_mem_cons.mp hargs
      obtain ⟨iha, ihrest⟩ := List.forall_mem_cons.mp ih
      obtain ⟨phaseA, hstepsA, heA⟩ := iha (⟨name, []⟩ :: stack) ha htext
      obtain ⟨phaseE, hstepsE, he⟩ := steps_of_spells_after stack heA ihrest hrest htext'
      have hinside := steps_cons (.enter hphase' hroom) (steps_append hstepsA hstepsE)
      refine ⟨phaseE, steps_append hsteps (steps_append hsteps' hinside), ?_⟩
      simpa using he

/-- The reader accepts every text of the grammar. -/
theorem read_of_spells {text : String} {e : TypeExpr} (hnames : e.WellNamed)
    (hdeep : e.nesting ≤ Limits.nesting) (h : Spells text.toList e.tokens) :
    read text = .ok e :=
  read_eq_ok_iff.mpr (e.readsBack [] ⟨hnames, hdeep⟩ h)

/-- The written form of an expression is read as that expression. -/
theorem read_render {e : TypeExpr} (hnames : e.WellNamed) (hdeep : e.nesting ≤ Limits.nesting) :
    read e.render = .ok e :=
  read_of_spells hnames hdeep e.spells_render

/-! ## 4. What is read belongs to the grammar -/

/-- The tokens of an application that is still open, each argument with its comma. -/
def OpenApplication.tokens (app : OpenApplication) : List Token :=
  .word app.name :: .opening :: app.done.reverse.flatMap fun e => e.tokens ++ [.comma]

/-- The tokens of all open applications. The innermost comes first in the stack and
last in the text. -/
def stackTokens (stack : List OpenApplication) : List Token :=
  stack.reverse.flatMap OpenApplication.tokens

@[simp] theorem stackTokens_cons (app : OpenApplication) (outer : List OpenApplication) :
    stackTokens (app :: outer) = stackTokens outer ++ app.tokens := by
  simp [stackTokens]

/-- Whether every open application keeps to the grammar, given those around it. -/
inductive StackFits : List OpenApplication → Prop
  | nil : StackFits []
  | cons {app : OpenApplication} {outer : List OpenApplication} (hname : IsName app.name)
      (hroom : outer.length < Limits.nesting) (hdone : ∀ e ∈ app.done, e.Fits (outer.length + 1))
      (houter : StackFits outer) : StackFits (app :: outer)

/-- What is open and what was read last keep to the grammar. -/
structure State.Fits (s : State) : Prop where
  stack : StackFits s.stack
  phase : ∀ {e}, s.phase.complete? = some e → e.Fits s.stack.length

/-- The characters that a phase stands for: none, a part of a name, or a text of the
expression that it has completed. -/
inductive Phase.Covers : Phase → List Char → Prop
  | awaiting : Covers .awaiting []
  | inName (spelled : List Char) : Covers (.inName spelled) spelled.reverse
  | named {name : String} {text : List Char} (h : Spells text [.word name]) :
      Covers (.named name) text
  | closed {e : TypeExpr} {text : List Char} (h : Spells text e.tokens) : Covers (.closed e) text

/-- `Holds text s`: the text spells the open applications of the state, and then what its
phase stands for. -/
inductive Holds : List Char → State → Prop
  | intro {before after : List Char} {stack : List OpenApplication} {phase : Phase}
      (hbefore : Spells before (stackTokens stack)) (hafter : phase.Covers after) :
      Holds (before ++ after) ⟨stack, phase⟩

section

variable {s s' : State} {c : Char} {e : TypeExpr} {text : List Char}

theorem StackFits.length_le {stack : List OpenApplication} (h : StackFits stack) :
    stack.length ≤ Limits.nesting := by
  cases h with
  | nil => exact Nat.zero_le _
  | cons _ hroom _ _ => exact hroom

/-- A bare name fits below any open brackets. -/
theorem StackFits.fits_name {stack : List OpenApplication} (h : StackFits stack) {name : String}
    (hname : IsName name) : (mk name []).Fits stack.length := by
  refine ⟨wellNamed_mk.mpr ⟨hname, by simp⟩, ?_⟩
  rw [nesting, Nat.zero_add]
  exact h.length_le

theorem IsName.concat {spelled : List Char} (h : IsName (String.ofList spelled))
    (hc : ContinuesName c) : IsName (String.ofList (spelled ++ [c])) := by
  obtain ⟨first, rest, htext, hfirst, hrest⟩ := h
  rw [String.toList_ofList] at htext
  refine ⟨first, rest ++ [c], by simp [htext], hfirst, ?_⟩
  simpa [or_imp, forall_and] using ⟨hrest, hc⟩

/-- No character leads out of the grammar. -/
theorem State.Fits.of_moves (h : s.Fits) (hmove : Moves s c s') : s'.Fits := by
  obtain ⟨hstack, hphase⟩ := h
  cases hmove with
  | skip hc => exact ⟨hstack, hphase⟩
  | begin hc =>
    refine ⟨hstack, fun he => ?_⟩
    cases he
    exact hstack.fits_name ⟨c, [], by simp, hc, by simp⟩
  | extend hc =>
    refine ⟨hstack, fun he => ?_⟩
    cases he
    have hname := (wellNamed_mk.mp (hphase rfl).wellNamed).1
    rw [List.reverse_cons]
    exact hstack.fits_name (hname.concat hc)
  | rest _ _ => exact ⟨hstack, fun he => hphase (by simpa using he)⟩
  | enter hname hroom =>
    have hfits := hphase (Phase.complete?_of_name? hname)
    refine ⟨.cons (wellNamed_mk.mp hfits.wellNamed).1 hroom (by simp) hstack, fun he => ?_⟩
    cases he
  | next he =>
    cases hstack with
    | cons hname hroom hdone houter =>
      refine ⟨.cons hname hroom (List.forall_mem_cons.mpr ⟨hphase he, hdone⟩) houter,
        fun he => ?_⟩
      cases he
  | leave he =>
    cases hstack with
    | cons hname hroom hdone houter =>
      refine ⟨houter, fun hclosed => ?_⟩
      cases hclosed
      refine (fits_mk_iff (by simp)).mpr ⟨hname, fun a ha => ?_⟩
      rcases List.mem_append.mp ha with ha | ha
      · exact hdone a (List.mem_reverse.mp ha)
      · rw [List.mem_singleton.mp ha]
        exact hphase he

theorem Phase.Covers.spells {phase : Phase} (h : phase.Covers text)
    (he : phase.complete? = some e) : Spells text e.tokens := by
  cases h with
  | awaiting => cases he
  | inName spelled =>
    cases he
    simpa [Token.text, tokens] using Spells.single (.word (String.ofList spelled.reverse))
  | named h =>
    cases he
    simpa [tokens] using h
  | closed h =>
    cases he
    exact h

theorem Phase.covers_ended {phase : Phase} (he : phase.complete? = some e)
    (h : Spells text e.tokens) : phase.ended.Covers text := by
  cases phase with
  | awaiting => cases he
  | inName spelled =>
    cases he
    exact .named (by simpa [tokens] using h)
  | named name =>
    cases he
    exact .named (by simpa [tokens] using h)
  | closed e =>
    cases he
    exact .closed h

/-- Each character is put down where it belongs. -/
theorem Holds.of_moves (h : Holds text s) (hmove : Moves s c s') : Holds (text ++ [c]) s' := by
  obtain ⟨hbefore, hafter⟩ := h
  rw [List.append_assoc]
  cases hmove with
  | skip hc =>
    cases hafter with
    | awaiting => simpa using Holds.intro (hbefore.append_blank hc) .awaiting
  | begin hc =>
    cases hafter with
    | awaiting => exact .intro hbefore (.inName [c])
  | @extend _ spelled _ hc =>
    cases hafter with
    | inName => simpa using Holds.intro hbefore (.inName (c :: spelled))
  | rest he hc => exact .intro hbefore (Phase.covers_ended he ((hafter.spells he).append_blank hc))
  | enter hname hroom =>
    have hword := hafter.spells (Phase.complete?_of_name? hname)
    have hopen := hbefore.append (hword.append (.single .opening))
    simpa using Holds.intro (by simpa [tokens, OpenApplication.tokens, Token.text] using hopen)
      .awaiting
  | next he =>
    have harg := hbefore.append ((hafter.spells he).append (.single .comma))
    simpa using Holds.intro (by simpa [OpenApplication.tokens, Token.text] using harg) .awaiting
  | @leave app outer phase e he =>
    -- the innermost application leaves the stack, with the last part of the text before
    rw [stackTokens_cons] at hbefore
    obtain ⟨outside, inside, rfl, houtside, hinside⟩ := hbefore.exists_of_append
    have hclosed := hinside.append ((hafter.spells he).append (.single .closing))
    rw [OpenApplication.tokens, ← tokens_mk_concat] at hclosed
    rw [List.append_assoc]
    exact .intro houtside (.closed hclosed)

end

/-- What is read keeps to the grammar, and its text spells it. -/
theorem spells_of_read {text : String} {e : TypeExpr} (h : read text = .ok e) :
    e.WellNamed ∧ e.nesting ≤ Limits.nesting ∧ Spells text.toList e.tokens := by
  obtain ⟨phase, hsteps, he⟩ := read_eq_ok_iff.mp h
  have hstart : Holds ([] ++ []) .start ∧ State.start.Fits :=
    ⟨.intro .nil .awaiting, .nil, fun he => by cases he⟩
  obtain ⟨hholds, hfits⟩ := steps_invariant
    (P := fun text s => Holds text s ∧ s.Fits)
    (fun hs hmove => ⟨hs.1.of_moves hmove, hs.2.of_moves hmove⟩) hstart hsteps
  refine ⟨(hfits.phase he).wellNamed, (hfits.phase he).nesting, ?_⟩
  rw [List.nil_append] at hholds
  generalize text.toList = chars at hholds
  cases hholds with
  | intro hbefore hafter => exact hbefore.append (hafter.spells he)

/-! ## 5. The language of type expressions -/

/-- A text is read as an expression exactly if the expression is well named, does not
nest too deep, and is spelled by the text, with blanks anywhere between its tokens. So an
accepted text spells one expression only, and every such expression is read back from
its written form. -/
theorem read_iff_spells :
    (∀ (text : String) (e : TypeExpr), read text = .ok e ↔
      e.WellNamed ∧ e.nesting ≤ Limits.nesting ∧ Spells text.toList e.tokens) ∧
    (∀ (text : String) (e : TypeExpr), read text = .ok e → ∀ e' : TypeExpr, e'.WellNamed →
      e'.nesting ≤ Limits.nesting → Spells text.toList e'.tokens → e' = e) ∧
    ∀ e : TypeExpr, e.WellNamed → e.nesting ≤ Limits.nesting → read e.render = .ok e := by
  refine ⟨fun text e => ⟨spells_of_read, fun h => read_of_spells h.1 h.2.1 h.2.2⟩, ?_, ?_⟩
  · intro text e hread e' hnames hdeep hspells
    have hread' := read_of_spells hnames hdeep hspells
    exact Except.ok.inj (hread'.symm.trans hread)
  · intro e hnames hdeep
    exact read_render hnames hdeep

/-- A map to lists, written with blanks of its own and as it is displayed. -/
theorem read_iff_spells_map :
    (mk "Map" [mk "string" [], mk "List" [mk "System.Int32" []]]).WellNamed ∧
    Spells " Map <\tstring,List< System.Int32>\n>".toList
      (mk "Map" [mk "string" [], mk "List" [mk "System.Int32" []]]).tokens ∧
    read "Map<string, List<System.Int32>>" =
      .ok (mk "Map" [mk "string" [], mk "List" [mk "System.Int32" []]]) := by
  obtain ⟨hiff, -, hback⟩ := read_iff_spells
  have hread : read " Map <\tstring,List< System.Int32>\n>" =
      .ok (mk "Map" [mk "string" [], mk "List" [mk "System.Int32" []]]) := read_eq_scan _
  obtain ⟨hnames, hdeep, hspells⟩ := (hiff _ _).mp hread
  exact ⟨hnames, hspells, hback _ hnames hdeep⟩

end Generics.TypeExpr

/-
Generics.Proofs.TypeExpr.Automaton — reading one character at a time.

The reader of type expressions goes down into brackets and comes back. The same texts can
be read without going down, by a machine that takes one character at a time: its state
holds the brackets that are still open and what stands before the next character, and each
character either leads to a next state or is refused.

Where the reader has read an expression inside some brackets, the machine has come to the
same place with the same brackets open and that expression behind it
(`readAt_awaiting`). So both read the same texts, and refuse the others at the same place
for the same reason (`read_eq_scan`). What is known of one step of the machine is thereby
known of the reader.
-/
import Generics.TypeExpr.Reader

namespace Generics.TypeExpr

/-! ## 1. States -/

/-- An application whose list of arguments is still open: its name, and the
arguments read so far, the last one first. -/
structure OpenApplication where
  name : String
  done : List TypeExpr

/-- What stands directly before the next character. -/
inductive Phase where
  /-- Nothing yet: a name has to come. -/
  | awaiting
  /-- A name that the next character may continue, its last character first. -/
  | inName (spelled : List Char)
  /-- A whole name; only an opening bracket can still add to it. -/
  | named (name : String)
  /-- A whole application, its bracket closed. -/
  | closed (e : TypeExpr)

/-- The reader between two characters: the open brackets, the innermost
first, and what was read last. -/
structure State where
  stack : List OpenApplication
  phase : Phase

/-- Before the first character. -/
def State.start : State where
  stack := []
  phase := .awaiting

/-- The expression that a phase has completed, if any. -/
def Phase.complete? : Phase → Option TypeExpr
  | .awaiting => none
  | .inName spelled => some (.mk (String.ofList spelled.reverse) [])
  | .named name => some (.mk name [])
  | .closed e => some e

/-! ## 2. Steps -/

/-- A refusal: the fault, and whether the character that led to it counts as
read. Only the bracket that opens too deep a level does. -/
structure Refusal where
  fault : Fault
  consumed : Bool := false

/-- The fault at a character that no separator rule allows, which depends on
whether a list of arguments is open. -/
def State.unexpected (s : State) : Fault :=
  if s.stack.isEmpty then .trailingInput else .expectedSeparator

/-- Opening a bracket after a name. -/
def State.openBracket (s : State) (name : String) : Except Refusal State :=
  if s.stack.length < Limits.nesting then .ok ⟨⟨name, []⟩ :: s.stack, .awaiting⟩
  else .error ⟨.tooDeep, true⟩

/-- A character after the complete expression `e`, where it can only end an
argument. -/
def State.separate (s : State) (e : TypeExpr) (c : Char) : Except Refusal State :=
  match s.stack with
  | [] => .error ⟨s.unexpected, false⟩
  | app :: outer =>
    if c == ',' then .ok ⟨⟨app.name, e :: app.done⟩ :: outer, .awaiting⟩
    else if c == '>' then .ok ⟨outer, .closed (.mk app.name (e :: app.done).reverse)⟩
    else .error ⟨s.unexpected, false⟩

/-- One character further. -/
def State.step (s : State) (c : Char) : Except Refusal State :=
  match s.phase with
  | .awaiting =>
    if Text.isAsciiBlank c then .ok s
    else if isNameStart c then .ok { s with phase := .inName [c] }
    else .error ⟨.expectedName, false⟩
  | .inName spelled =>
    let name := String.ofList spelled.reverse
    if isNameRest c then .ok { s with phase := .inName (c :: spelled) }
    else if Text.isAsciiBlank c then .ok { s with phase := .named name }
    else if c == '<' then s.openBracket name
    else s.separate (.mk name []) c
  | .named name =>
    if Text.isAsciiBlank c then .ok s
    else if c == '<' then s.openBracket name
    else s.separate (.mk name []) c
  | .closed e =>
    if Text.isAsciiBlank c then .ok s
    else s.separate e c

/-- The end of the text. -/
def State.finish (s : State) : Except Fault TypeExpr :=
  match s.phase.complete?, s.stack with
  | none, _ => .error .expectedName
  | some e, [] => .ok e
  | some _, _ :: _ => .error .expectedSeparator

/-- The rest of a text, of which `offset` bytes are read. -/
def readFrom (offset : Nat) (s : State) : List Char → Except (Nat × Fault) TypeExpr
  | [] => s.finish.mapError fun fault => (offset, fault)
  | c :: rest =>
    match s.step c with
    | .ok next => readFrom (offset + c.utf8Size) next rest
    | .error refusal =>
      .error (if refusal.consumed then offset + c.utf8Size else offset, refusal.fault)

/-- A whole text. -/
def scan (text : String) : Except ReadError TypeExpr :=
  (readFrom 0 .start text.toList).mapError fun (offset, fault) => ⟨text, offset, fault⟩

/-! ## 3. The reader moves on -/

namespace Cursor

variable {p : Char → Bool} {offset : Nat} {text : List Char} {s s' : Cursor} {c : Char}

theorem length_skipWhile_le (p : Char → Bool) (offset : Nat) (text : List Char) :
    (skipWhile p offset text).rest.length ≤ text.length := by
  induction text generalizing offset with
  | nil => exact Nat.le_refl _
  | cons c rest ih =>
    rw [skipWhile]
    split
    · exact Nat.le_succ_of_le (ih _)
    · exact Nat.le_refl _

theorem length_skipBlanks_le (s : Cursor) : s.skipBlanks.rest.length ≤ s.rest.length :=
  length_skipWhile_le _ _ _

/-- What is left does not begin with a character that is skipped. -/
theorem head_skipWhile (p : Char → Bool) (offset : Nat) (text : List Char) {c : Char}
    {rest : List Char} (h : (skipWhile p offset text).rest = c :: rest) : p c = false := by
  induction text generalizing offset with
  | nil => cases h
  | cons c' rest' ih =>
    rw [skipWhile] at h
    split at h
    · exact ih _ h
    · rename_i hstop
      cases h
      exact Bool.not_eq_true _ ▸ hstop

theorem eat?_eq_some_iff :
    s.eat? c = some s' ↔ ∃ rest, s.rest = c :: rest ∧ s' = ⟨s.offset + c.utf8Size, rest⟩ := by
  obtain ⟨offset, _ | ⟨next, rest⟩⟩ := s
  · simp [eat?]
  · by_cases heq : next = c
    · subst heq
      simp [eat?, eq_comm]
    · simp [eat?, heq]

theorem eat?_eq_none_iff : s.eat? c = none ↔ ∀ rest, s.rest ≠ c :: rest := by
  obtain ⟨offset, _ | ⟨next, rest⟩⟩ := s
  · simp [eat?]
  · by_cases heq : next = c
    · subst heq
      simp [eat?]
    · simp [eat?, heq]

theorem length_lt_of_eat? (h : s.eat? c = some s') : s'.rest.length < s.rest.length := by
  obtain ⟨rest, hrest, rfl⟩ := eat?_eq_some_iff.mp h
  rw [hrest]
  exact Nat.lt_succ_self _

end Cursor

section

variable {f : Cursor → Reading TypeExpr} {s s' : Cursor} {e : TypeExpr} {done : List TypeExpr}

/-- A part that is read takes characters. -/
def Shortens {α : Type} (f : Cursor → Reading α) : Prop :=
  ∀ ⦃s a s'⦄, f s = .ok (a, s') → s'.rest.length < s.rest.length

theorem shortens_readName : Shortens readName := by
  rintro ⟨offset, _ | ⟨c, rest⟩⟩ name s' h
  · cases h
  · simp only [readName] at h
    split at h
    · cases h
      exact Nat.lt_succ_of_le (Cursor.length_skipWhile_le _ _ _)
    · cases h

theorem argumentTurn_of_error {failure : Nat × Fault} (h : f s = .error failure) :
    argumentTurn f (done, s) = .inr (.error failure) := by
  simp only [argumentTurn, h]

theorem argumentTurn_of_comma {next : Cursor} (h : f s = .ok (e, s'))
    (hcomma : s'.skipBlanks.eat? ',' = some next) :
    argumentTurn f (done, s) = .inl (e :: done, next) := by
  simp only [argumentTurn, h, hcomma]

theorem argumentTurn_of_bracket {next : Cursor} (h : f s = .ok (e, s'))
    (hcomma : s'.skipBlanks.eat? ',' = none) (hbracket : s'.skipBlanks.eat? '>' = some next) :
    argumentTurn f (done, s) = .inr (.ok ((e :: done).reverse, next)) := by
  simp only [argumentTurn, h, hcomma, hbracket]

theorem argumentTurn_of_neither (h : f s = .ok (e, s'))
    (hcomma : s'.skipBlanks.eat? ',' = none) (hbracket : s'.skipBlanks.eat? '>' = none) :
    argumentTurn f (done, s) = .inr (.error (s'.skipBlanks.offset, .expectedSeparator)) := by
  simp only [argumentTurn, h, hcomma, hbracket]

/-- Behind an argument, and behind what follows it, less is left. -/
theorem Shortens.length_lt_of_eat? {c : Char} {next : Cursor} (hf : Shortens f)
    (h : f s = .ok (e, s')) (heat : s'.skipBlanks.eat? c = some next) :
    next.rest.length < s.rest.length :=
  calc next.rest.length
    _ < s'.skipBlanks.rest.length := Cursor.length_lt_of_eat? heat
    _ ≤ s'.rest.length := s'.length_skipBlanks_le
    _ < s.rest.length := hf h

/-- A list of arguments comes to an end, since every argument takes characters. -/
theorem Shortens.halts_arguments (hf : Shortens f) (done : List TypeExpr) (s : Cursor) :
    ∃ answer, Halts (argumentTurn f) (done, s) answer ∧
      ∀ args s', answer = .ok (args, s') → s'.rest.length < s.rest.length := by
  induction hn : s.rest.length using Nat.strongRecOn generalizing done s with
  | ind n ih =>
    subst hn
    cases hread : f s with
    | error failure => exact ⟨_, .last (argumentTurn_of_error hread), nofun⟩
    | ok result =>
      obtain ⟨e, s'⟩ := result
      cases hcomma : s'.skipBlanks.eat? ',' with
      | some next =>
        have hlt := hf.length_lt_of_eat? hread hcomma
        obtain ⟨answer, hhalts, hshort⟩ := ih _ hlt (e :: done) next rfl
        exact ⟨answer, .next (argumentTurn_of_comma hread hcomma) hhalts,
          fun args s' hanswer => Nat.lt_trans (hshort args s' hanswer) hlt⟩
      | none =>
        cases hbracket : s'.skipBlanks.eat? '>' with
        | some next =>
          refine ⟨_, .last (argumentTurn_of_bracket hread hcomma hbracket), fun args s' h => ?_⟩
          cases h
          exact hf.length_lt_of_eat? hread hbracket
        | none => exact ⟨_, .last (argumentTurn_of_neither hread hcomma hbracket), nofun⟩

theorem shortens_readExpr (depth : Nat) : Shortens (readExpr depth) := by
  induction hlevels : Limits.nesting + 1 - depth generalizing depth with
  | zero =>
    intro s e s' h
    rw [readExpr, if_pos (by omega)] at h
    cases h
  | succ levels ih =>
    intro s e s' h
    rw [readExpr, if_neg (by omega)] at h
    cases hname : readName s.skipBlanks with
    | error failure => simp only [hname] at h; cases h
    | ok result =>
      obtain ⟨name, s₁⟩ := result
      have hlt : s₁.skipBlanks.rest.length < s.rest.length :=
        calc s₁.skipBlanks.rest.length
          _ ≤ s₁.rest.length := s₁.length_skipBlanks_le
          _ < s.skipBlanks.rest.length := shortens_readName hname
          _ ≤ s.rest.length := s.length_skipBlanks_le
      simp only [hname] at h
      cases hopen : s₁.skipBlanks.eat? '<' with
      | none =>
        simp only [hopen] at h
        cases h
        exact hlt
      | some s₂ =>
        obtain ⟨answer, hhalts, hshort⟩ :=
          (ih (depth + 1) (by omega)).halts_arguments [] s₂
        simp only [hopen, hhalts.loop_eq] at h
        cases hanswer : answer with
        | error failure => rw [hanswer] at h; cases h
        | ok result =>
          obtain ⟨args, s₃⟩ := result
          rw [hanswer] at h
          cases h
          exact Nat.lt_trans (hshort _ _ hanswer)
            (Nat.lt_trans (Cursor.length_lt_of_eat? hopen) hlt)

end

/-! ## 4. The machine keeps up with the reader -/

/-- The machine goes on from a place. -/
def State.readAt (s : State) (place : Cursor) : Except (Nat × Fault) TypeExpr :=
  readFrom place.offset s place.rest

section

variable {p : Char → Bool} {offset : Nat} {text rest : List Char} {s next : State} {c : Char}
  {stack outer : List OpenApplication} {app : OpenApplication} {name : String} {e : TypeExpr}
  {place : Cursor}

theorem readFrom_of_step (h : s.step c = .ok next) :
    readFrom offset s (c :: rest) = readFrom (offset + c.utf8Size) next rest := by
  rw [readFrom, h]

theorem readFrom_of_refusal {refusal : Refusal} (h : s.step c = .error refusal) :
    readFrom offset s (c :: rest) =
      .error (if refusal.consumed then offset + c.utf8Size else offset, refusal.fault) := by
  rw [readFrom, h]

/-- Characters that change nothing may be skipped. -/
theorem readFrom_skipWhile (h : ∀ c, p c = true → s.step c = .ok s) (offset : Nat)
    (text : List Char) : readFrom offset s text = s.readAt (.skipWhile p offset text) := by
  induction text generalizing offset with
  | nil => rfl
  | cons c rest ih =>
    rw [Cursor.skipWhile]
    split
    · rename_i hc
      rw [readFrom_of_step (h c hc), ih]
    · rfl

theorem step_awaiting_blank (hc : Text.isAsciiBlank c = true) :
    State.step ⟨stack, .awaiting⟩ c = .ok ⟨stack, .awaiting⟩ :=
  if_pos hc

theorem step_named_blank (hc : Text.isAsciiBlank c = true) :
    State.step ⟨stack, .named name⟩ c = .ok ⟨stack, .named name⟩ :=
  if_pos hc

theorem step_closed_blank (hc : Text.isAsciiBlank c = true) :
    State.step ⟨stack, .closed e⟩ c = .ok ⟨stack, .closed e⟩ :=
  if_pos hc

/-- Inside a name the machine collects what the reader takes at once. -/
theorem readFrom_inName (offset : Nat) (spelled text : List Char) :
    readFrom offset ⟨stack, .inName spelled⟩ text =
      State.readAt ⟨stack, .inName ((text.takeWhile isNameRest).reverse ++ spelled)⟩
        (.skipWhile isNameRest offset text) := by
  induction text generalizing offset spelled with
  | nil => rfl
  | cons c rest ih =>
    rw [Cursor.skipWhile, List.takeWhile_cons]
    split
    · rename_i hc
      have hstep : State.step ⟨stack, .inName spelled⟩ c = .ok ⟨stack, .inName (c :: spelled)⟩ :=
        if_pos hc
      rw [readFrom_of_step hstep, ih, List.reverse_cons, List.append_assoc]
      rfl
    · rfl

/-- Where no character can continue a name, the name is whole. -/
theorem readFrom_inName_stop (spelled : List Char)
    (h : ∀ c rest, text = c :: rest → isNameRest c = false) :
    readFrom offset ⟨stack, .inName spelled⟩ text =
      readFrom offset ⟨stack, .named (String.ofList spelled.reverse)⟩ text := by
  cases text with
  | nil => rfl
  | cons c rest =>
    have hstep : State.step ⟨stack, .inName spelled⟩ c =
        State.step ⟨stack, .named (String.ofList spelled.reverse)⟩ c :=
      if_neg (Bool.eq_false_iff.mp (h c rest rfl))
    rw [readFrom, readFrom, hstep]

/-- A bracket behind a name opens a list of arguments, if the nesting allows. -/
theorem readAt_named_of_open {inner : Cursor} (h : place.eat? '<' = some inner) :
    State.readAt ⟨stack, .named name⟩ place =
      if stack.length < Limits.nesting then State.readAt ⟨⟨name, []⟩ :: stack, .awaiting⟩ inner
      else .error (inner.offset, .tooDeep) := by
  obtain ⟨rest, hrest, rfl⟩ := Cursor.eat?_eq_some_iff.mp h
  have hstep : State.step ⟨stack, .named name⟩ '<' =
      if stack.length < Limits.nesting then .ok ⟨⟨name, []⟩ :: stack, .awaiting⟩
      else .error ⟨.tooDeep, true⟩ := rfl
  rw [State.readAt, hrest]
  split
  · rename_i hlevel
    rw [if_pos hlevel] at hstep
    exact readFrom_of_step hstep
  · rename_i hlevel
    rw [if_neg hlevel] at hstep
    exact readFrom_of_refusal hstep

/-- A name without a bracket behind it is an expression. -/
theorem readAt_named_of_not_open
    (hblank : ∀ c rest, place.rest = c :: rest → Text.isAsciiBlank c = false)
    (h : place.eat? '<' = none) :
    State.readAt ⟨stack, .named name⟩ place =
      State.readAt ⟨stack, .closed (.mk name [])⟩ place := by
  obtain ⟨offset, _ | ⟨c, rest⟩⟩ := place
  · rfl
  · have hne : ¬ (c == '<') = true := fun heq =>
      Cursor.eat?_eq_none_iff.mp h rest (by rw [eq_of_beq heq])
    have hskip : ¬ Text.isAsciiBlank c = true := Bool.eq_false_iff.mp (hblank c rest rfl)
    have hnamed : State.step ⟨stack, .named name⟩ c =
        State.separate ⟨stack, .named name⟩ (.mk name []) c :=
      (if_neg hskip).trans (if_neg hne)
    have hclosed : State.step ⟨stack, .closed (.mk name [])⟩ c =
        State.separate ⟨stack, .closed (.mk name [])⟩ (.mk name []) c := if_neg hskip
    have hseparate : State.separate ⟨stack, .named name⟩ (.mk name []) c =
        State.separate ⟨stack, .closed (.mk name [])⟩ (.mk name []) c := rfl
    rw [State.readAt, State.readAt, readFrom, readFrom, hnamed, hclosed, hseparate]

theorem head_skipBlanks (place : Cursor) (c : Char) (rest : List Char)
    (h : place.skipBlanks.rest = c :: rest) : Text.isAsciiBlank c = false :=
  Cursor.head_skipWhile _ _ _ h

theorem readAt_awaiting_skipBlanks (stack : List OpenApplication) (place : Cursor) :
    State.readAt ⟨stack, .awaiting⟩ place = State.readAt ⟨stack, .awaiting⟩ place.skipBlanks :=
  readFrom_skipWhile (fun _ => step_awaiting_blank) _ _

theorem readAt_closed_skipBlanks (stack : List OpenApplication) (e : TypeExpr)
    (place : Cursor) :
    State.readAt ⟨stack, .closed e⟩ place = State.readAt ⟨stack, .closed e⟩ place.skipBlanks :=
  readFrom_skipWhile (fun _ => step_closed_blank) _ _

/-- Where the reader reads a name the machine does, and skips the blanks behind it. -/
theorem readAt_awaiting_of_name {behind : Cursor}
    (hblank : ∀ c rest, place.rest = c :: rest → Text.isAsciiBlank c = false)
    (h : readName place = .ok (name, behind)) :
    State.readAt ⟨stack, .awaiting⟩ place =
      State.readAt ⟨stack, .named name⟩ behind.skipBlanks := by
  obtain ⟨offset, _ | ⟨c, rest⟩⟩ := place
  · cases h
  simp only [readName] at h
  split at h
  · rename_i hstart
    cases h
    have hskip : ¬ Text.isAsciiBlank c = true := Bool.eq_false_iff.mp (hblank c rest rfl)
    have hstep : State.step ⟨stack, .awaiting⟩ c = .ok ⟨stack, .inName [c]⟩ :=
      (if_neg hskip).trans (if_pos hstart)
    have hname : ((rest.takeWhile isNameRest).reverse ++ [c]).reverse =
        c :: rest.takeWhile isNameRest := by simp
    rw [State.readAt, readFrom_of_step hstep, readFrom_inName, State.readAt,
      readFrom_inName_stop _ fun _ _ => Cursor.head_skipWhile _ _ _, hname]
    exact readFrom_skipWhile (fun _ => step_named_blank) _ _
  · cases h

theorem readAt_awaiting_of_error {failure : Nat × Fault}
    (hblank : ∀ c rest, place.rest = c :: rest → Text.isAsciiBlank c = false)
    (h : readName place = .error failure) :
    State.readAt ⟨stack, .awaiting⟩ place = .error failure := by
  obtain ⟨offset, _ | ⟨c, rest⟩⟩ := place
  · cases h
    rfl
  simp only [readName] at h
  split at h
  · cases h
  · rename_i hstart
    cases h
    have hskip : ¬ Text.isAsciiBlank c = true := Bool.eq_false_iff.mp (hblank c rest rfl)
    have hstep : State.step ⟨stack, .awaiting⟩ c = .error ⟨.expectedName, false⟩ :=
      (if_neg hskip).trans (if_neg hstart)
    exact readFrom_of_refusal hstep

theorem readAt_closed_of_comma {behind : Cursor} (h : place.eat? ',' = some behind) :
    State.readAt ⟨app :: outer, .closed e⟩ place =
      State.readAt ⟨⟨app.name, e :: app.done⟩ :: outer, .awaiting⟩ behind := by
  obtain ⟨rest, hrest, rfl⟩ := Cursor.eat?_eq_some_iff.mp h
  rw [State.readAt, hrest]
  exact readFrom_of_step rfl

theorem readAt_closed_of_bracket {behind : Cursor} (h : place.eat? '>' = some behind) :
    State.readAt ⟨app :: outer, .closed e⟩ place =
      State.readAt ⟨outer, .closed (.mk app.name (e :: app.done).reverse)⟩ behind := by
  obtain ⟨rest, hrest, rfl⟩ := Cursor.eat?_eq_some_iff.mp h
  rw [State.readAt, hrest]
  exact readFrom_of_step rfl

/-- Behind an argument nothing but a comma or a closing bracket may stand. -/
theorem readAt_closed_of_neither
    (hblank : ∀ c rest, place.rest = c :: rest → Text.isAsciiBlank c = false)
    (hcomma : place.eat? ',' = none) (hbracket : place.eat? '>' = none) :
    State.readAt ⟨app :: outer, .closed e⟩ place = .error (place.offset, .expectedSeparator) := by
  obtain ⟨offset, _ | ⟨c, rest⟩⟩ := place
  · rfl
  · have hskip : ¬ Text.isAsciiBlank c = true := Bool.eq_false_iff.mp (hblank c rest rfl)
    have hne : ¬ (c == ',') = true := fun heq =>
      Cursor.eat?_eq_none_iff.mp hcomma rest (by rw [eq_of_beq heq])
    have hne' : ¬ (c == '>') = true := fun heq =>
      Cursor.eat?_eq_none_iff.mp hbracket rest (by rw [eq_of_beq heq])
    have hstep : State.step ⟨app :: outer, .closed e⟩ c = .error ⟨.expectedSeparator, false⟩ :=
      (if_neg hskip).trans ((if_neg hne).trans (if_neg hne'))
    exact readFrom_of_refusal hstep

/-- Behind the whole expression nothing may stand. -/
theorem readAt_closed_nil
    (hblank : ∀ c rest, place.rest = c :: rest → Text.isAsciiBlank c = false) :
    State.readAt ⟨[], .closed e⟩ place =
      if place.rest.isEmpty then .ok e else .error (place.offset, .trailingInput) := by
  obtain ⟨offset, _ | ⟨c, rest⟩⟩ := place
  · rfl
  · have hskip : ¬ Text.isAsciiBlank c = true := Bool.eq_false_iff.mp (hblank c rest rfl)
    have hstep : State.step ⟨[], .closed e⟩ c = .error ⟨.trailingInput, false⟩ := if_neg hskip
    exact readFrom_of_refusal hstep

/-- The machine goes on where the reader has come to, with the expression it has read. -/
def resume (stack : List OpenApplication) : Reading TypeExpr → Except (Nat × Fault) TypeExpr
  | .error failure => .error failure
  | .ok (e, place) => State.readAt ⟨stack, .closed e⟩ place

/-- A machine that keeps up with the reader of one argument keeps up with a list of them. -/
theorem readAt_arguments {f : Cursor → Reading TypeExpr} (hf : Shortens f)
    (hmachine : ∀ app place,
      State.readAt ⟨app :: outer, .awaiting⟩ place = resume (app :: outer) (f place))
    (done : List TypeExpr) (place : Cursor) :
    State.readAt ⟨⟨name, done⟩ :: outer, .awaiting⟩ place =
      match loop (argumentTurn f) (done, place) with
      | .error failure => .error failure
      | .ok (args, behind) => State.readAt ⟨outer, .closed (.mk name args)⟩ behind := by
  induction hn : place.rest.length using Nat.strongRecOn generalizing done place with
  | ind n ih =>
    subst hn
    rw [hmachine]
    cases hread : f place with
    | error failure => rw [loop_of_inr (argumentTurn_of_error hread), resume]
    | ok result =>
      obtain ⟨e, behind⟩ := result
      rw [resume, readAt_closed_skipBlanks]
      cases hcomma : behind.skipBlanks.eat? ',' with
      | some next =>
        rw [readAt_closed_of_comma hcomma, loop_of_inl (argumentTurn_of_comma hread hcomma)]
        exact ih _ (hf.length_lt_of_eat? hread hcomma) (e :: done) next rfl
      | none =>
        cases hbracket : behind.skipBlanks.eat? '>' with
        | some next =>
          rw [readAt_closed_of_bracket hbracket,
            loop_of_inr (argumentTurn_of_bracket hread hcomma hbracket)]
        | none =>
          rw [readAt_closed_of_neither (head_skipBlanks _) hcomma hbracket,
            loop_of_inr (argumentTurn_of_neither hread hcomma hbracket)]

/-- Inside as many brackets as are open, the machine keeps up with the reader. The induction
is on the number of brackets that may still be opened. -/
theorem readAt_awaiting (stack : List OpenApplication) (hlevel : stack.length ≤ Limits.nesting)
    (place : Cursor) :
    State.readAt ⟨stack, .awaiting⟩ place = resume stack (readExpr stack.length place) := by
  induction hlevels : Limits.nesting - stack.length using Nat.strongRecOn
    generalizing stack place with
  | ind levels ih =>
    subst hlevels
    rw [readAt_awaiting_skipBlanks, readExpr, if_neg (Nat.not_lt.mpr hlevel)]
    cases hname : readName place.skipBlanks with
    | error failure => exact readAt_awaiting_of_error (head_skipBlanks place) hname
    | ok result =>
      obtain ⟨name, behind⟩ := result
      rw [readAt_awaiting_of_name (head_skipBlanks place) hname]
      cases hopen : behind.skipBlanks.eat? '<' with
      | none =>
        simp only [hopen]
        exact readAt_named_of_not_open (head_skipBlanks behind) hopen
      | some inner =>
        simp only [hopen]
        rw [readAt_named_of_open hopen]
        split
        · rename_i hlt
          have hargument : ∀ app place, State.readAt ⟨app :: stack, .awaiting⟩ place =
              resume (app :: stack) (readExpr (stack.length + 1) place) := fun app place =>
            ih _ (by rw [List.length_cons]; omega) (app :: stack) hlt place rfl
          rw [readAt_arguments (shortens_readExpr (stack.length + 1)) hargument]
          cases loop (argumentTurn (readExpr (stack.length + 1))) ([], inner) <;> rfl
        · rename_i hfull
          have hdeep : readExpr (stack.length + 1) inner = .error (inner.offset, .tooDeep) := by
            rw [readExpr, if_pos (by omega)]
          rw [loop_of_inr (argumentTurn_of_error hdeep)]
          rfl

end

/-- The reader and the machine read the same texts as the same expressions, and refuse the
others with the same errors. -/
theorem read_eq_scan (text : String) : read text = scan text := by
  have hmachine := readAt_awaiting [] (Nat.zero_le _) ⟨0, text.toList⟩
  rw [scan, show readFrom 0 .start text.toList = State.readAt .start ⟨0, text.toList⟩ from rfl,
    State.start, hmachine, read, List.length_nil]
  cases readExpr 0 ⟨0, text.toList⟩ with
  | error failure => rfl
  | ok result =>
    obtain ⟨e, behind⟩ := result
    simp only [resume]
    rw [readAt_closed_skipBlanks, readAt_closed_nil (head_skipBlanks behind)]
    split <;> rfl

end Generics.TypeExpr

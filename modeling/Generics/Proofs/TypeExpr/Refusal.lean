/-
Generics.Proofs.TypeExpr.Refusal — an error names the first character that cannot stand.

A text begins an expression if some text that is read begins with it. Whatever the state
of the reader, its open brackets can still be closed (`exists_completion`). So a text begins
an expression exactly if none of its characters is refused (`begins_iff`), and the place
of an error is where the text stops to begin one. The bracket that opens too deep a
level is the exception: the error stands behind it.
-/
import Generics.Proofs.TypeExpr.Reading

namespace Generics.TypeExpr

/-- Some text that is read as an expression begins with this one. -/
def Begins (text : String) : Prop :=
  ∃ (rest : String) (e : TypeExpr), read (text ++ rest) = .ok e

/-! ## 1. Every state can be completed -/

/-- Closing all open brackets leads from a complete expression to a complete one. -/
theorem steps_closing (stack : List OpenApplication) {phase : Phase} {e : TypeExpr}
    (he : phase.complete? = some e) :
    ∃ phase' e', State.steps ⟨stack, phase⟩ (List.replicate stack.length '>') =
      .ok ⟨[], phase'⟩ ∧ phase'.complete? = some e' := by
  induction stack generalizing phase e with
  | nil => exact ⟨phase, e, rfl, he⟩
  | cons app outer ih =>
    let closed : Phase := .closed (.mk app.name (app.done.reverse ++ [e]))
    have hclosed : closed.complete? = some (.mk app.name (app.done.reverse ++ [e])) := rfl
    obtain ⟨phase', e', hsteps, he'⟩ := ih hclosed
    exact ⟨phase', e', steps_cons (.leave he) hsteps, he'⟩

/-- Where a name has to come, any name will do. -/
theorem exists_completion (s : State) :
    ∃ rest phase e, s.steps rest = .ok ⟨[], phase⟩ ∧ phase.complete? = some e := by
  obtain ⟨stack, phase⟩ := s
  cases hphase : phase.complete? with
  | some e =>
    obtain ⟨phase', e', hsteps, he'⟩ := steps_closing stack hphase
    exact ⟨_, phase', e', hsteps, he'⟩
  | none =>
    have hbegin : Moves ⟨stack, .awaiting⟩ 'T' ⟨stack, .inName ['T']⟩ := .begin (.inl (by decide))
    have hname : (Phase.inName ['T']).complete? = some (.mk "T" []) := rfl
    have hawaiting : phase = .awaiting := by
      cases phase with
      | awaiting => rfl
      | _ => cases hphase
    subst hawaiting
    obtain ⟨phase', e', hsteps, he'⟩ := steps_closing stack hname
    exact ⟨_, phase', e', steps_cons hbegin hsteps, he'⟩

theorem steps_of_steps_append {s s₂ : State} {text text' : List Char}
    (h : s.steps (text ++ text') = .ok s₂) : ∃ s₁, s.steps text = .ok s₁ := by
  cases hsteps : s.steps text with
  | ok s₁ => exact ⟨s₁, rfl⟩
  | error refusal =>
    rw [State.steps, List.foldlM_append, ← State.steps, hsteps] at h
    cases h

/-- A text begins an expression exactly if none of its characters is refused. -/
theorem begins_iff {text : String} :
    Begins text ↔ ∃ s, State.start.steps text.toList = .ok s := by
  constructor
  · rintro ⟨rest, e, hread⟩
    obtain ⟨phase, hsteps, -⟩ := read_eq_ok_iff.mp hread
    rw [String.toList_append] at hsteps
    exact steps_of_steps_append hsteps
  · rintro ⟨s, hsteps⟩
    obtain ⟨rest, phase, e, hrest, he⟩ := exists_completion s
    refine ⟨String.ofList rest, e, read_eq_ok_iff.mpr ⟨phase, ?_, he⟩⟩
    rw [String.toList_append, String.toList_ofList]
    exact steps_append hsteps hrest

theorem not_begins_push {text : String} {s : State} {c : Char} {refusal : Refusal}
    (hsteps : State.start.steps text.toList = .ok s) (hstep : s.step c = .error refusal) :
    ¬ Begins (text.push c) := by
  rw [begins_iff, String.toList_push]
  rintro ⟨s', hsteps'⟩
  rw [State.steps, List.foldlM_append, ← State.steps, hsteps] at hsteps'
  have hsteps'' : s.steps [c] = .ok s' := hsteps'
  rw [State.steps, List.foldlM_cons, hstep] at hsteps''
  cases hsteps''

/-! ## 2. Refused characters -/

section

variable {s : State} {c : Char} {refusal : Refusal}

theorem openBracket_eq_error {name : String} (h : s.openBracket name = .error refusal) :
    refusal = ⟨.tooDeep, true⟩ ∧ Limits.nesting ≤ s.stack.length := by
  rw [State.openBracket] at h
  split at h
  · cases h
  · rename_i hfull
    cases h
    exact ⟨rfl, Nat.le_of_not_lt hfull⟩

theorem unexpected_ne_tooDeep (s : State) : s.unexpected ≠ .tooDeep := by
  rw [State.unexpected]
  split <;> decide

theorem separate_eq_error {e : TypeExpr} (h : s.separate e c = .error refusal) :
    refusal.fault ≠ .tooDeep ∧ refusal.consumed = false := by
  rw [State.separate] at h
  split at h
  · cases h
    exact ⟨unexpected_ne_tooDeep s, rfl⟩
  · split at h
    · cases h
    · split at h
      · cases h
      · cases h
        exact ⟨unexpected_ne_tooDeep s, rfl⟩

/-- A refused character is not counted as read, unless it is a bracket that opens too
deep a level. -/
theorem step_eq_error (h : s.step c = .error refusal) :
    refusal.fault ≠ .tooDeep ∧ refusal.consumed = false ∨
      refusal = ⟨.tooDeep, true⟩ ∧ c = '<' ∧ Limits.nesting ≤ s.stack.length := by
  rw [State.step] at h
  split at h
  · split at h
    · cases h
    · split at h
      · cases h
      · cases h
        exact .inl ⟨by decide, rfl⟩
  · simp only [beq_iff_eq] at h
    split at h
    · cases h
    · split at h
      · cases h
      · split at h
        · obtain ⟨hrefusal, hfull⟩ := openBracket_eq_error h
          exact .inr ⟨hrefusal, ‹_›, hfull⟩
        · exact .inl (separate_eq_error h)
  · simp only [beq_iff_eq] at h
    split at h
    · cases h
    · split at h
      · obtain ⟨hrefusal, hfull⟩ := openBracket_eq_error h
        exact .inr ⟨hrefusal, ‹_›, hfull⟩
      · exact .inl (separate_eq_error h)
  · split at h
    · cases h
    · exact .inl (separate_eq_error h)

theorem finish_ne_tooDeep {fault : Fault} (h : s.finish = .error fault) : fault ≠ .tooDeep := by
  rw [State.finish] at h
  split at h <;> cases h <;> decide

end

/-! ## 3. Refused texts -/

/-- `Refused s before after fault`: going on from `s` through a text fails when `before` is
read and `after` is left. The text ends too early, or its next character cannot stand, or
it has just opened too deep a level. -/
inductive Refused (s : State) : List Char → List Char → Fault → Prop
  | ending {before : List Char} {last : State} {fault : Fault} (hsteps : s.steps before = .ok last)
      (hfinish : last.finish = .error fault) : Refused s before [] fault
  | character {before after : List Char} {c : Char} {last : State} {refusal : Refusal}
      (hsteps : s.steps before = .ok last) (hstep : last.step c = .error refusal)
      (hfault : refusal.fault ≠ .tooDeep) : Refused s before (c :: after) refusal.fault
  | bracket {before after : List Char} {last : State} {refusal : Refusal}
      (hsteps : s.steps before = .ok last) (hstep : last.step '<' = .error refusal)
      (hfull : Limits.nesting ≤ last.stack.length) : Refused s (before ++ ['<']) after .tooDeep

theorem Refused.cons {s next : State} {c : Char} {before after : List Char} {fault : Fault}
    (hstep : s.step c = .ok next) (h : Refused next before after fault) :
    Refused s (c :: before) after fault := by
  have hmove := moves_of_step hstep
  cases h with
  | ending hsteps hfinish => exact .ending (steps_cons hmove hsteps) hfinish
  | character hsteps hstep hfault => exact .character (steps_cons hmove hsteps) hstep hfault
  | bracket hsteps hstep hfull =>
    rw [← List.cons_append]
    exact .bracket (steps_cons hmove hsteps) hstep hfull

/-- The offset of an error counts the bytes of what was read. -/
theorem refused_of_readFrom {offset place : Nat} {s : State} {text : List Char} {fault : Fault}
    (h : readFrom offset s text = .error (place, fault)) :
    ∃ before after, text = before ++ after ∧ Refused s before after fault ∧
      place = offset + (String.ofList before).utf8ByteSize := by
  induction text generalizing offset s with
  | nil =>
    rw [readFrom] at h
    cases hfinish : s.finish with
    | ok e => rw [hfinish] at h; cases h
    | error fault =>
      rw [hfinish] at h
      cases h
      exact ⟨[], [], rfl, .ending rfl hfinish, rfl⟩
  | cons c text ih =>
    rw [readFrom] at h
    cases hstep : s.step c with
    | ok next =>
      rw [hstep] at h
      obtain ⟨before, after, rfl, hrefused, hplace⟩ := ih h
      refine ⟨c :: before, after, rfl, hrefused.cons hstep, ?_⟩
      rw [hplace, String.ofList_cons, String.utf8ByteSize_append, String.utf8ByteSize_singleton,
        Nat.add_assoc]
    | error refusal =>
      simp only [hstep, Except.error.injEq, Prod.mk.injEq] at h
      obtain ⟨rfl, rfl⟩ := h
      rcases step_eq_error hstep with ⟨hfault, hconsumed⟩ | ⟨rfl, rfl, hfull⟩
      · exact ⟨[], c :: text, rfl, .character rfl hstep hfault, by simp [hconsumed]⟩
      · have hnone : s.steps [] = .ok s := rfl
        refine ⟨['<'], text, rfl, .bracket hnone hstep hfull, ?_⟩
        rw [← String.singleton_eq_ofList, String.utf8ByteSize_singleton]
        rfl

/-! ## 4. Open brackets -/

theorem ne_bracket_of_continuesName {c : Char} (hc : ContinuesName c) : c ≠ '<' ∧ c ≠ '>' := by
  constructor <;> rintro rfl <;> exact absurd (isNameRest_iff.mpr hc) (by decide)

theorem ne_bracket_of_blank {c : Char} (hc : Blank c) : c ≠ '<' ∧ c ≠ '>' := by
  constructor <;> rintro rfl <;> exact absurd (isAsciiBlank_iff.mpr hc) (by decide)

/-- The stack holds the brackets that were opened and not closed. -/
theorem count_brackets {text : List Char} {s : State} (h : State.start.steps text = .ok s) :
    text.count '<' = text.count '>' + s.stack.length := by
  have hstep : ∀ {read : List Char} {s : State} {c : Char} {s' : State},
      read.count '<' = read.count '>' + s.stack.length → Moves s c s' →
      (read ++ [c]).count '<' = (read ++ [c]).count '>' + s'.stack.length := by
    intro read s c s' hread hmove
    rw [List.count_append, List.count_append, hread]
    cases hmove with
    | skip hc => simp [ne_bracket_of_blank hc]
    | begin hc => simp [ne_bracket_of_continuesName (.inl hc)]
    | extend hc => simp [ne_bracket_of_continuesName hc]
    | rest _ hc => simp [ne_bracket_of_blank hc]
    | enter => simp [Nat.add_assoc]
    | next => simp
    | leave =>
      simp only [List.count_singleton, List.length_cons]
      simp [Nat.add_assoc, Nat.add_comm 1]
  exact @steps_invariant (fun text s => text.count '<' = text.count '>' + s.stack.length)
    hstep [] text .start s rfl h

/-- No more brackets are ever open than the limit allows. -/
theorem length_stack_le {text : List Char} {s : State} (h : State.start.steps text = .ok s) :
    s.stack.length ≤ Limits.nesting := by
  have hstart : State.start.Fits := ⟨.nil, fun he => by cases he⟩
  have hfits : s.Fits := @steps_invariant (fun _ s => s.Fits)
    (fun hs hmove => hs.of_moves hmove) [] text .start s hstart h
  exact hfits.stack.length_le

/-! ## 5. The place of an error -/

theorem message_eq_tooDeep_iff {fault : Fault} :
    fault.message = "generic nesting is too deep" ↔ fault = .tooDeep := by
  cases fault <;> decide

section

variable {before after : List Char} {fault : Fault}

theorem Refused.begins (h : Refused .start before after fault) (hfault : fault ≠ .tooDeep) :
    Begins (String.ofList before) ∧
      ∀ c rest, after = c :: rest → ¬ Begins ((String.ofList before).push c) := by
  cases h with
  | ending hsteps hfinish =>
    exact ⟨begins_iff.mpr ⟨_, by rwa [String.toList_ofList]⟩, fun c rest heq => by cases heq⟩
  | character hsteps hstep =>
    rw [← String.toList_ofList (l := before)] at hsteps
    refine ⟨begins_iff.mpr ⟨_, hsteps⟩, fun c rest heq => ?_⟩
    cases heq
    exact not_begins_push hsteps hstep
  | bracket => exact absurd rfl hfault

theorem Refused.opens (h : Refused .start before after .tooDeep) :
    ∃ outer : String, String.ofList before = outer.push '<' ∧
      before.count '<' = before.count '>' + (Limits.nesting + 1) ∧
      ¬ Begins (outer.push '<') ∧ Begins outer := by
  generalize hdeep : Fault.tooDeep = fault at h
  cases h with
  | ending _ hfinish => exact absurd hdeep.symm (finish_ne_tooDeep hfinish)
  | character _ _ hfault => exact absurd hdeep.symm hfault
  | @bracket outer _ last refusal hsteps hstep hfull =>
    have hlevel : last.stack.length = Limits.nesting :=
      Nat.le_antisymm (length_stack_le hsteps) hfull
    have hcount := count_brackets hsteps
    rw [hlevel] at hcount
    rw [← String.toList_ofList (l := outer)] at hsteps
    refine ⟨String.ofList outer, ?_, ?_, not_begins_push hsteps hstep, begins_iff.mpr ⟨_, hsteps⟩⟩
    · rw [String.push_eq_append, String.singleton_eq_ofList, String.ofList_append]
    · rw [List.count_append, List.count_append, hcount]
      rfl

end

/-- The bytes before a place say what the text before it is. -/
theorem eq_of_utf8ByteSize_eq {before before' after after' : String}
    (h : before ++ after = before' ++ after') (hsize : before.utf8ByteSize = before'.utf8ByteSize) :
    before = before' ∧ after = after' := by
  have hbytes := congrArg String.toByteArray h
  rw [String.toByteArray_append, String.toByteArray_append] at hbytes
  have hbefore : before = before' := String.toByteArray_inj.mp
    (ByteArray.append_inj_left hbytes (by rwa [String.size_toByteArray, String.size_toByteArray]))
  subst hbefore
  exact ⟨rfl, (String.append_right_inj before).mp h⟩

/-- An error names the first character that cannot stand. Its offset lies in the text and
between two characters. What is before it begins an expression, and with the next
character of the text, if there is one, it begins none. Only if the nesting is too deep
the character has been read: what is before the offset ends with a bracket that opens
one level more than allowed, begins no expression, and would begin one without
that bracket. -/
theorem read_error_offset {text : String} {error : ReadError} (h : read text = .error error) :
    error.text = text ∧ error.offset ≤ text.utf8ByteSize ∧
    (∃ before after : String, text = before ++ after ∧ before.utf8ByteSize = error.offset) ∧
    ∀ before after : String, text = before ++ after → before.utf8ByteSize = error.offset →
      (error.fault.message ≠ "generic nesting is too deep" →
        Begins before ∧ ∀ c rest, after.toList = c :: rest → ¬ Begins (before.push c)) ∧
      (error.fault.message = "generic nesting is too deep" →
        ∃ outer : String, before = outer.push '<' ∧
          before.toList.count '<' = before.toList.count '>' + (Limits.nesting + 1) ∧
          ¬ Begins before ∧ Begins outer) := by
  rw [read_eq_scan, scan] at h
  cases hread : readFrom 0 .start text.toList with
  | ok e => rw [hread] at h; cases h
  | error failure =>
    obtain ⟨place, fault⟩ := failure
    rw [hread] at h
    cases h
    obtain ⟨chars, left, htext, hrefused, hplace⟩ := refused_of_readFrom hread
    rw [Nat.zero_add] at hplace
    have hsplit : text = String.ofList chars ++ String.ofList left := by
      rw [← String.ofList_append, ← htext, String.ofList_toList]
    refine ⟨rfl, ?_, ⟨_, _, hsplit, hplace.symm⟩, fun before after hsplit' hsize => ?_⟩
    · rw [hsplit, String.utf8ByteSize_append, ← hplace]
      exact Nat.le_add_right _ _
    obtain ⟨rfl, rfl⟩ := eq_of_utf8ByteSize_eq (hsplit'.symm.trans hsplit) (hsize.trans hplace)
    rw [String.toList_ofList, String.toList_ofList]
    constructor
    · intro hmessage
      exact hrefused.begins fun hdeep => hmessage (message_eq_tooDeep_iff.mpr hdeep)
    · intro hmessage
      obtain rfl : fault = .tooDeep := message_eq_tooDeep_iff.mp hmessage
      obtain ⟨outer, hbefore, hcount, hnot, hbegins⟩ := hrefused.opens
      rw [hbefore]
      exact ⟨outer, rfl, hcount, hnot, hbegins⟩

/-- So many opening brackets, each behind the name `T`. -/
def opened (count : Nat) : String :=
  String.ofList (List.replicate count ['T', '<']).flatten

set_option maxRecDepth 8000 in
/-- A name has to begin with an ASCII letter: `é` is refused where it stands, behind four
bytes. And of brackets that only open, the one behind the fiftieth is the first too many. -/
theorem read_error_offset_box :
    (read "Box<é>" = .error ⟨"Box<é>", 4, .expectedName⟩ ∧ Begins "Box<" ∧ ¬ Begins "Box<é") ∧
    read (opened 60) = .error ⟨opened 60, 102, .tooDeep⟩ ∧ ¬ Begins (opened 51) := by
  have hread : read "Box<é>" = .error ⟨"Box<é>", 4, .expectedName⟩ := read_eq_scan _
  have hdeep : read (opened 60) = .error ⟨opened 60, 102, .tooDeep⟩ := read_eq_scan _
  obtain ⟨-, -, -, hplace⟩ := read_error_offset hread
  obtain ⟨hbegins, hnext⟩ := (hplace "Box<" "é>" rfl rfl).1 (by decide)
  obtain ⟨-, -, -, hplace'⟩ := read_error_offset hdeep
  obtain ⟨-, -, -, hnot, -⟩ := (hplace' (opened 51) (opened 9) rfl rfl).2 rfl
  exact ⟨⟨hread, hbegins, hnext 'é' ['>'] rfl⟩, hdeep, hnot⟩

end Generics.TypeExpr

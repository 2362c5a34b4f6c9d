/-
Generics.Proofs.Json.RoundTrip — written JSON text is read back.

The text of a value is a row of words, and no word of it can run on into what
follows, as long as there are no numbers. So the reader can be followed word by
word, whatever stands after the value and whatever lists are still open around
it (`Textual.reads`). At the end of a document both are empty, which gives the
round trip (`read_write`).
-/
import Generics.Json.Reader
import Generics.Json.Writer

namespace Generics.Json

/-- A value without numbers, all of whose lists are closed. -/
inductive Textual : Json → Prop
  | null : Textual .null
  | bool (value : Bool) : Textual (.bool value)
  | string (text : String) : Textual (.string text)
  | list {items : List Json} (h : ∀ j ∈ items, Textual j) : Textual (.list items)
  | record {members : List (String × Json)} (h : ∀ m ∈ members, Textual m.2) :
      Textual (.record members)

/-! ## 1. Strings -/

theorem hexValue?_hexDigit : ∀ n < 16, hexValue? (hexDigit n) = some n := by decide

/-- The four digits of a control character. -/
theorem hexValue4?_control {n : Nat} (h : n < 0x20) :
    hexValue4? '0' '0' (hexDigit (n / 16)) (hexDigit (n % 16)) = some n := by
  have hzero : hexValue? '0' = some 0 := by decide
  have hhigh := hexValue?_hexDigit (n / 16) (by omega)
  have hlow := hexValue?_hexDigit (n % 16) (by omega)
  simp only [hexValue4?, hzero, hhigh, hlow, Option.some.injEq]
  omega

theorem readString?_quote (rest : List Char) : readString? ('"' :: rest) = some ([], rest) := by
  unfold readString?
  simp

theorem readString?_plain {c : Char} (hquote : c ≠ '"') (hbackslash : c ≠ '\\')
    (hcontrol : ¬ c.toNat < 0x20) (rest : List Char) :
    readString? (c :: rest) = (readString? rest).map fun (cs, rest) => (c :: cs, rest) := by
  conv => lhs; unfold readString?
  simp [hquote, hbackslash, hcontrol]

/-- An escaped character is read as the character. -/
theorem readString?_escapeChar (c : Char) (rest : List Char) :
    readString? (escapeChar c ++ rest) =
      (readString? rest).map fun (cs, rest) => (c :: cs, rest) := by
  by_cases hquote : c = '"'
  · subst hquote; simp [escapeChar, readString?, escaped?]
  by_cases hbackslash : c = '\\'
  · subst hbackslash; simp [escapeChar, readString?, escaped?]
  by_cases hb : c = '\x08'
  · subst hb; simp [escapeChar, readString?, escaped?]
  by_cases hf : c = '\x0c'
  · subst hf; simp [escapeChar, readString?, escaped?]
  by_cases hn : c = '\n'
  · subst hn; simp [escapeChar, readString?, escaped?]
  by_cases hr : c = '\r'
  · subst hr; simp [escapeChar, readString?, escaped?]
  by_cases ht : c = '\t'
  · subst ht; simp [escapeChar, readString?, escaped?]
  by_cases hcontrol : c.toNat < 0x20
  · have hleading : isLeadingHalf c.toNat = false := by simp [isLeadingHalf]; omega
    have htrailing : isTrailingHalf c.toNat = false := by simp [isTrailingHalf]; omega
    simp [escapeChar, hquote, hbackslash, hb, hf, hn, hr, ht, hcontrol, readString?,
      hexValue4?_control hcontrol, hleading, htrailing]
  · simp [escapeChar, hquote, hbackslash, hb, hf, hn, hr, ht, hcontrol,
      readString?_plain hquote hbackslash hcontrol]

theorem readString?_escaped (text rest : List Char) :
    readString? (text.flatMap escapeChar ++ '"' :: rest) = some (text, rest) := by
  induction text with
  | nil => exact readString?_quote rest
  | cons c text ih => simp [readString?_escapeChar, ih]

/-! ## 2. Words -/

/-- A word at the front of a text. -/
theorem tokens_cons {c : Char} {rest rest' : List Char} {token : Token}
    (hspace : isSpace c = false) (hread : readToken c rest = (token, rest'))
    (hgood : token ≠ .bad) : tokens (c :: rest) = token :: tokens rest' := by
  rw [tokens]
  split
  · rename_i hnil
    simp [hspace] at hnil
  · rename_i c' tail hcons
    simp only [List.dropWhile_cons, hspace, Bool.false_eq_true, if_false, List.cons.injEq] at hcons
    obtain ⟨rfl, rfl⟩ := hcons
    rw [hread]
    split
    · rename_i hbad
      exact absurd hbad hgood
    · rfl

theorem tokens_punctuation {c : Char} {token : Token} (h : punctuation? c = some token)
    (rest : List Char) : tokens (c :: rest) = token :: tokens rest := by
  have hread : readToken c rest = (token, rest) := by simp only [readToken, h]
  unfold punctuation? at h
  split at h <;> cases h <;> exact tokens_cons (by decide) hread (by simp)

theorem tokens_writeString (text : String) (rest : List Char) :
    tokens (writeString text ++ rest) = .string text :: tokens rest := by
  have hread : readToken '"' (text.toList.flatMap escapeChar ++ '"' :: rest) =
      (.string text, rest) := by
    simp [readToken, punctuation?, readString, readString?_escaped]
  rw [writeString, List.cons_append, List.append_assoc]
  exact tokens_cons (by decide) hread (by simp)

theorem tokens_null (rest : List Char) : tokens ("null".toList ++ rest) = .null :: tokens rest :=
  tokens_cons (c := 'n') (by decide) rfl (by simp)

theorem tokens_bool (value : Bool) (rest : List Char) :
    tokens ((if value then "true".toList else "false".toList) ++ rest) =
      .bool value :: tokens rest := by
  cases value with
  | true => exact tokens_cons (c := 't') (by decide) rfl (by simp)
  | false => exact tokens_cons (c := 'f') (by decide) rfl (by simp)

/-! ## 3. Following the reader -/

/-- A document is complete after a value only. -/
theorem result?_eq_none (stack : List Frame) {phase : Phase}
    (hphase : ∀ value, phase ≠ .after value) : State.result? ⟨stack, phase⟩ = none := by
  cases phase with
  | after value => exact absurd rfl (hphase value)
  | _ => cases stack <;> rfl

/-- In this state a value may begin, with these lists open around it. -/
structure State.Awaits (s : State) (stack : List Frame) : Prop where
  unfinished : s.result? = none
  step : ∀ t, t ≠ .closeBracket → s.step t = valueStep stack t

theorem awaits_value (stack : List Frame) : State.Awaits ⟨stack, .value⟩ stack where
  unfinished := result?_eq_none stack (by simp)
  step _ _ := rfl

theorem awaits_firstItem (stack : List Frame) :
    State.Awaits ⟨stack, .firstItem⟩ (.array [] :: stack) where
  unfinished := result?_eq_none stack (by simp)
  step t ht := by
    cases t with
    | closeBracket => exact absurd rfl ht
    | _ => rfl

theorem readTokens_step {s next : State} {t : Token} (hresult : s.result? = none)
    (hstep : s.step t = some next) (rest : List Token) :
    readTokens s (t :: rest) = readTokens next rest := by
  simp only [readTokens, hresult, hstep]

/-- The text of the value is read as the value, whatever follows. -/
def Reads (j : Json) : Prop :=
  ∀ s stack, State.Awaits s stack → ∀ rest,
    readTokens s (tokens (writeChars j ++ rest)) = readTokens ⟨stack, .after j⟩ (tokens rest)

/-- A value of one word. -/
theorem reads_of_word {j : Json} {t : Token}
    (htokens : ∀ rest, tokens (writeChars j ++ rest) = t :: tokens rest)
    (ht : t ≠ .closeBracket) (hstep : ∀ stack, valueStep stack t = some ⟨stack, .after j⟩) :
    Reads j := by
  intro s stack hs rest
  rw [htokens rest, readTokens_step hs.unfinished ((hs.step t ht).trans (hstep stack))]

theorem writeItems_cons (item next : Json) (items : List Json) :
    writeItems (item :: next :: items) = writeChars item ++ ',' :: writeItems (next :: items) := by
  rw [writeItems]
  simp

theorem writeMembers_cons (key : String) (value : Json) (next : String × Json)
    (members : List (String × Json)) :
    writeMembers ((key, value) :: next :: members) =
      writeString key ++ ':' :: (writeChars value ++ ',' :: writeMembers (next :: members)) := by
  rw [writeMembers]
  simp

/-- Items up to the bracket that closes their list. -/
theorem readTokens_items {stack : List Frame} {item : Json} {items done : List Json} {s : State}
    (hitem : Reads item) (hitems : ∀ j ∈ items, Reads j)
    (hs : State.Awaits s (.array done :: stack)) (rest : List Char) :
    readTokens s (tokens (writeItems (item :: items) ++ ']' :: rest)) =
      readTokens ⟨stack, .after (.list (done.reverse ++ item :: items))⟩ (tokens rest) := by
  induction items generalizing item done s with
  | nil =>
    rw [writeItems, hitem s _ hs, tokens_punctuation rfl, readTokens_step rfl rfl]
    simp [list]
  | cons next items ih =>
    rw [writeItems_cons, List.append_assoc, hitem s _ hs, List.cons_append, tokens_punctuation rfl,
      readTokens_step rfl rfl, ih (hitems next List.mem_cons_self)
        (fun j hj => hitems j (List.mem_cons_of_mem _ hj)) (awaits_value _)]
    simp

/-- The key of a member and its colon. -/
theorem readTokens_key (stack : List Frame) (done : List (String × Json)) (key : String)
    (rest : List Char) :
    readTokens ⟨stack, .key done⟩ (tokens (writeString key ++ ':' :: rest)) =
      readTokens ⟨.member done key :: stack, .value⟩ (tokens rest) := by
  have hkey : State.step ⟨stack, .key done⟩ (.string key) = some ⟨stack, .colon done key⟩ := by
    cases done <;> rfl
  rw [tokens_writeString, readTokens_step (result?_eq_none stack (by simp)) hkey,
    tokens_punctuation rfl, readTokens_step (result?_eq_none stack (by simp)) rfl]

/-- Members up to the brace that closes their object. -/
theorem readTokens_members {stack : List Frame} {key : String} {value : Json}
    {members done : List (String × Json)} (hvalue : Reads value)
    (hmembers : ∀ m ∈ members, Reads m.2) (rest : List Char) :
    readTokens ⟨stack, .key done⟩ (tokens (writeMembers ((key, value) :: members) ++
        '\x7d' :: rest)) =
      readTokens ⟨stack, .after (.record (done.reverse ++ (key, value) :: members))⟩
        (tokens rest) := by
  induction members generalizing key value done with
  | nil =>
    rw [writeMembers, List.append_assoc, List.cons_append, readTokens_key,
      hvalue _ _ (awaits_value _), tokens_punctuation rfl, readTokens_step rfl rfl]
    simp [record]
  | cons next members ih =>
    rw [writeMembers_cons, List.append_assoc, List.cons_append, readTokens_key, List.append_assoc,
      hvalue _ _ (awaits_value _), List.cons_append, tokens_punctuation rfl,
      readTokens_step rfl rfl,
      ih (hmembers next List.mem_cons_self) fun m hm => hmembers m (List.mem_cons_of_mem _ hm)]
    simp

/-! ## 4. The round trip -/

theorem Textual.reads {j : Json} (h : Textual j) : Reads j := by
  induction h with
  | null => exact reads_of_word tokens_null (by simp) fun _ => rfl
  | bool value =>
    exact reads_of_word (t := .bool value) (by simpa [writeChars] using tokens_bool value)
      (by simp) fun _ => rfl
  | string text =>
    exact reads_of_word (t := .string text) (by simpa [writeChars] using tokens_writeString text)
      (by simp) fun _ => rfl
  | @list items _ ih =>
    intro s stack hs rest
    rw [Json.list, writeChars, List.cons_append, List.append_assoc, tokens_punctuation rfl,
      readTokens_step hs.unfinished (hs.step .openBracket (by simp))]
    cases items with
    | nil =>
      show readTokens ⟨stack, .firstItem⟩ (tokens (']' :: rest)) = _
      rw [tokens_punctuation rfl, readTokens_step (awaits_firstItem stack).unfinished rfl]
    | cons item items =>
      exact readTokens_items (ih item List.mem_cons_self)
        (fun j hj => ih j (List.mem_cons_of_mem _ hj)) (awaits_firstItem stack) rest
  | @record members _ ih =>
    intro s stack hs rest
    rw [Json.record, writeChars, List.cons_append, List.append_assoc, tokens_punctuation rfl,
      readTokens_step hs.unfinished (hs.step .openBrace (by simp))]
    cases members with
    | nil =>
      show readTokens ⟨stack, .key []⟩ (tokens ('\x7d' :: rest)) = _
      rw [tokens_punctuation rfl, readTokens_step (result?_eq_none stack (by simp)) rfl]
    | cons m members =>
      exact readTokens_members (ih m List.mem_cons_self)
        (fun m hm => ih m (List.mem_cons_of_mem _ hm)) rest

/-- The text of a value without numbers is read as the value, and nothing is
left. -/
theorem read_write {j : Json} (h : Textual j) : read j.write = (j, false) := by
  have hread := h.reads .start [] (awaits_value []) []
  have hend : tokens [] = [] := by simp [tokens]
  rw [List.append_nil, hend] at hread
  simp [read, write, hread, readTokens, State.cut]

end Generics.Json

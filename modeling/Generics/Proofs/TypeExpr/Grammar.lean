/-
Generics.Proofs.TypeExpr.Grammar — the grammar of type expressions.

An expression is written with four kinds of tokens: names, two brackets and the
comma between arguments. A text spells a list of tokens if it holds their
characters one after the other, with any blanks before, between and after them.
Nothing here mentions how a text is read; the reader is compared with the grammar in
`Generics.Proofs.TypeExpr.Reading`.

The written form of an expression is one text that spells it (`spells_render`).
-/
import Generics.TypeExpr.Reader

namespace Generics.TypeExpr

/-! ## 1. Expressions -/

/-- Induction on expressions, with the hypothesis for every argument. -/
@[induction_eliminator]
theorem induction {motive : TypeExpr → Prop}
    (mk : ∀ name args, (∀ a ∈ args, motive a) → motive (.mk name args)) (e : TypeExpr) :
    motive e :=
  @TypeExpr.rec motive (fun es => ∀ e ∈ es, motive e) mk (by simp)
    (fun _ _ he hrest => List.forall_mem_cons.mpr ⟨he, hrest⟩) e

@[simp] theorem renderAll_eq_map (es : List TypeExpr) : renderAll es = es.map render := by
  induction es with
  | nil => rfl
  | cons e rest ih => rw [renderAll, ih, List.map_cons]

theorem nestingAll_le_iff {es : List TypeExpr} {n : Nat} :
    nestingAll es ≤ n ↔ ∀ e ∈ es, e.nesting ≤ n := by
  induction es with
  | nil => simp [nestingAll]
  | cons e rest ih => rw [nestingAll, Nat.max_le, ih, List.forall_mem_cons]

/-- Brackets around arguments are one level more. -/
theorem nesting_mk {name : String} {args : List TypeExpr} (h : args ≠ []) :
    (mk name args).nesting = nestingAll args + 1 := by
  cases args with
  | nil => exact absurd rfl h
  | cons e rest => rw [nesting, nestingAll]

/-! ## 2. Names -/

/-- The blanks that may stand between tokens. -/
def Blank (c : Char) : Prop :=
  c = ' ' ∨ c = '\t' ∨ c = '\n' ∨ c = '\x0c' ∨ c = '\r'

/-- The first character of a name: `[A-Za-z_]`. -/
def StartsName (c : Char) : Prop :=
  ('A' ≤ c ∧ c ≤ 'Z') ∨ ('a' ≤ c ∧ c ≤ 'z') ∨ c = '_'

/-- A later character of a name: `[A-Za-z0-9_.]`. -/
def ContinuesName (c : Char) : Prop :=
  StartsName c ∨ ('0' ≤ c ∧ c ≤ '9') ∨ c = '.'

/-- The names of types: `[A-Za-z_][A-Za-z0-9_.]*`. -/
def IsName (name : String) : Prop :=
  ∃ first rest, name.toList = first :: rest ∧ StartsName first ∧ ∀ c ∈ rest, ContinuesName c

theorem isAsciiBlank_iff {c : Char} : Text.isAsciiBlank c = true ↔ Blank c := by
  simp [Text.isAsciiBlank, Blank, or_assoc]

theorem decide_and_decide_iff {p q : Prop} [Decidable p] [Decidable q] :
    (decide p && decide q) = true ↔ p ∧ q := by
  simp

theorem isNameStart_iff {c : Char} : isNameStart c = true ↔ StartsName c := by
  have hupper : c.isUpper = true ↔ 'A' ≤ c ∧ c ≤ 'Z' := decide_eq_true_iff
  have hlower : c.isLower = true ↔ 'a' ≤ c ∧ c ≤ 'z' := decide_and_decide_iff
  have halpha : c.isAlpha = true ↔ c.isUpper = true ∨ c.isLower = true := Bool.or_eq_true_iff
  rw [isNameStart, Bool.or_eq_true, halpha, hupper, hlower, beq_iff_eq, or_assoc, StartsName]

theorem isNameRest_iff {c : Char} : isNameRest c = true ↔ ContinuesName c := by
  have hdigit : c.isDigit = true ↔ '0' ≤ c ∧ c ≤ '9' := decide_and_decide_iff
  have hrest : isNameRest c = true ↔ isNameStart c = true ∨ c.isDigit = true ∨ c = '.' := by
    simp [isNameRest, isNameStart, Char.isAlphanum, or_assoc, or_left_comm]
  rw [hrest, isNameStart_iff, hdigit, ContinuesName]

mutual

/-- All names of an expression, in the order written. -/
def names : TypeExpr → List String
  | mk name args => name :: namesAll args

/-- All names of several expressions. -/
def namesAll : List TypeExpr → List String
  | [] => []
  | e :: rest => names e ++ namesAll rest

end

/-- Every name of the expression is one. -/
def WellNamed (e : TypeExpr) : Prop :=
  ∀ name ∈ e.names, IsName name

theorem mem_namesAll {name : String} {es : List TypeExpr} :
    name ∈ namesAll es ↔ ∃ e ∈ es, name ∈ e.names := by
  induction es with
  | nil => simp [namesAll]
  | cons e rest ih => simp [namesAll, ih]

theorem wellNamed_mk {name : String} {args : List TypeExpr} :
    (mk name args).WellNamed ↔ IsName name ∧ ∀ a ∈ args, a.WellNamed := by
  simp only [WellNamed, names, List.forall_mem_cons, mem_namesAll]
  constructor
  · intro h
    exact ⟨h.1, fun a ha n hn => h.2 n ⟨a, ha, hn⟩⟩
  · intro h
    refine ⟨h.1, ?_⟩
    rintro n ⟨a, ha, hn⟩
    exact h.2 a ha n hn

/-! ## 3. Tokens -/

/-- What expressions are written with. -/
inductive Token where
  | word (name : String)
  | opening
  | comma
  | closing

/-- The characters of a token. -/
def Token.text : Token → List Char
  | word name => name.toList
  | opening => ['<']
  | comma => [',']
  | closing => ['>']

mutual

/-- The tokens of an expression: a name, or `name '<' arg (',' arg)* '>'`. -/
def tokens : TypeExpr → List Token
  | mk name [] => [.word name]
  | mk name (e :: rest) => .word name :: .opening :: (tokens e ++ tokensAfter rest)

/-- The tokens that follow an argument: further arguments, each after a comma, and the
closing bracket. -/
def tokensAfter : List TypeExpr → List Token
  | [] => [.closing]
  | e :: rest => .comma :: (tokens e ++ tokensAfter rest)

end

/-- The tokens of a list of arguments, by its last one. -/
theorem tokens_mk_concat (name : String) (args : List TypeExpr) (e : TypeExpr) :
    (mk name (args ++ [e])).tokens =
      .word name :: .opening :: (args.flatMap fun a => a.tokens ++ [.comma]) ++
        (e.tokens ++ [.closing]) := by
  have hafter : ∀ args a, tokens a ++ tokensAfter (args ++ [e]) =
      ((a :: args).flatMap fun a => a.tokens ++ [.comma]) ++ (e.tokens ++ [.closing]) := by
    intro args
    induction args with
    | nil => simp [tokensAfter]
    | cons b rest ih =>
      intro a
      rw [List.cons_append, tokensAfter, ih b]
      simp
  cases args with
  | nil => simp [tokens, tokensAfter]
  | cons a rest => rw [List.cons_append, tokens, hafter]; simp

/-! ## 4. Texts -/

/-- `Spells text tokens`: the text holds these tokens and otherwise only blanks. -/
inductive Spells : List Char → List Token → Prop
  | blanks {blanks : List Char} (hblanks : ∀ c ∈ blanks, Blank c) : Spells blanks []
  | token {blanks text : List Char} {token : Token} {tokens : List Token}
      (hblanks : ∀ c ∈ blanks, Blank c) (h : Spells text tokens) :
      Spells (blanks ++ token.text ++ text) (token :: tokens)

namespace Spells

variable {text text' blanks : List Char} {tokens tokens' : List Token}

theorem nil : Spells [] [] :=
  .blanks (by simp)

theorem single (token : Token) : Spells token.text [token] := by
  have h : Spells ([] ++ token.text ++ []) [token] := .token (by simp) .nil
  simpa using h

theorem blanks_append (hblanks : ∀ c ∈ blanks, Blank c) (h : Spells text tokens) :
    Spells (blanks ++ text) tokens := by
  cases h with
  | blanks hmore => exact .blanks (by simpa [or_imp, forall_and] using ⟨hblanks, hmore⟩)
  | @token more rest token tokens hmore h =>
    rw [← List.append_assoc, ← List.append_assoc]
    exact .token (by simpa [or_imp, forall_and] using ⟨hblanks, hmore⟩) h

theorem append (h : Spells text tokens) (h' : Spells text' tokens') :
    Spells (text ++ text') (tokens ++ tokens') := by
  induction h with
  | blanks hblanks => exact h'.blanks_append hblanks
  | token hblanks _ ih =>
    rw [List.append_assoc, List.cons_append]
    exact .token hblanks ih

/-- The text of two lists of tokens falls into two texts. -/
theorem exists_of_append (h : Spells text (tokens ++ tokens')) :
    ∃ before after, text = before ++ after ∧ Spells before tokens ∧ Spells after tokens' := by
  induction tokens generalizing text with
  | nil => exact ⟨[], text, rfl, .nil, h⟩
  | cons token tokens ih =>
    cases h with
    | @token blanks rest _ _ hblanks h =>
      obtain ⟨before, after, rfl, hbefore, hafter⟩ := ih h
      exact ⟨blanks ++ token.text ++ before, after, by simp, .token hblanks hbefore, hafter⟩

theorem append_blank {c : Char} (h : Spells text tokens) (hc : Blank c) :
    Spells (text ++ [c]) tokens := by
  have hblank : Spells [c] [] := .blanks (by simpa using hc)
  simpa using h.append hblank

end Spells

/-- The written form of an expression is one of the texts that spell it. -/
theorem spells_render (e : TypeExpr) : Spells e.render.toList e.tokens := by
  have hspace : ∀ c ∈ [' '], Blank c := by simp [Blank]
  induction e with
  | mk name args ih =>
    -- the arguments after the first one, each behind a comma and a space
    have hafter : ∀ rest a, (∀ b ∈ a :: rest, Spells b.render.toList b.tokens) →
        Spells ((", ".intercalate ((a :: rest).map render)).toList ++ ['>'])
          (a.tokens ++ tokensAfter rest) := by
      intro rest
      induction rest with
      | nil =>
        intro a ha
        simpa [tokensAfter, Token.text] using (ha a (by simp)).append (.single .closing)
      | cons b rest hrest =>
        intro a ha
        have hb := hrest b fun x hx => ha x (List.mem_cons_of_mem _ hx)
        have hcomma := (Spells.single .comma).append (hb.blanks_append hspace)
        simpa [tokensAfter, Token.text] using (ha a (by simp)).append hcomma
    cases args with
    | nil =>
      simpa [render, tokens, Text.bracketed, Token.text] using Spells.single (.word name)
    | cons a rest =>
      have hopen := (Spells.single (.word name)).append (.single .opening)
      simpa [render, tokens, Text.bracketed, Text.commaSeparated, Token.text]
        using hopen.append (hafter rest a ih)

end Generics.TypeExpr

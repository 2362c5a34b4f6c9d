/-
Generics.Proofs.SymbolTable — texts and symbols stand for each other.

A table keeps its texts in a row and their symbols in a hash table. `Numbers` says
which texts it has been given and that the two agree: the row holds every given
text once, in the order of first use, and the hash table leads from each text to
its place. Every call keeps this (`Numbers.perform`), and so does every run of
calls (`numbers_performAll`), however many texts it brings.

The width of symbols matters only after that. As long as all places fit, a text
and a symbol lead to each other (`Numbers.find?_eq_some_iff_text?`), and what a
user of the table relies on follows (`bijective_performAll`). Beyond that two
texts share a symbol, so the limit is exact (`Numbers.find?_injective_iff`).
-/
import Generics.SymbolTable
import Generics.Proofs.Distinct
import Mathlib.Data.Finset.Card

namespace Generics

/-- A call of a symbol table. -/
inductive SymbolCall where
  | insert (text : String)
  | find (text : String)
  deriving DecidableEq, Repr

namespace SymbolCall

/-- The text that a call asks about. -/
def text : SymbolCall → String
  | insert text | find text => text

/-- The text that a call brings into the table. -/
def inserted? : SymbolCall → Option String
  | insert text => some text
  | find _ => none

/-- The table after a call. -/
def perform (t : SymbolTable) : SymbolCall → SymbolTable
  | insert text => (t.insert text).2
  | find _ => t

/-- The symbol that a call returns, if it returns one. -/
def answer? (t : SymbolTable) : SymbolCall → Option Symbol
  | insert text => some (t.insert text).1
  | find text => t.find? text

/-- The texts that a run of calls brings into the table, with repetitions. -/
def insertedTexts (calls : List SymbolCall) : List String :=
  calls.filterMap inserted?

theorem mem_insertedTexts {calls : List SymbolCall} {text : String} :
    text ∈ insertedTexts calls ↔ insert text ∈ calls := by
  rw [insertedTexts, List.mem_filterMap]
  constructor
  · rintro ⟨call, hmem, hcall⟩
    cases call with
    | insert _ => exact Option.some.inj hcall ▸ hmem
    | find _ => cases hcall
  · exact fun hmem => ⟨insert text, hmem, rfl⟩

end SymbolCall

namespace SymbolTable

open SymbolCall (insertedTexts)

/-- The table after a run of calls. -/
def performAll (t : SymbolTable) (calls : List SymbolCall) : SymbolTable :=
  calls.foldl SymbolCall.perform t

/-- In a run of calls on an empty table, some call for `text` has returned `s`. -/
def Answered (calls : List SymbolCall) (text : String) (s : Symbol) : Prop :=
  ∃ before call after, calls = before ++ call :: after ∧ call.text = text ∧
    call.answer? (empty.performAll before) = some s

/-- The table numbers the given texts: it holds each of them once, in the order of
first use, and finds a text by the symbol for its place. -/
structure Numbers (t : SymbolTable) (given : List String) : Prop where
  texts : t.texts.toList = given.eraseDups
  find?_eq_some_iff : ∀ text s, t.find? text = some s ↔
    ∃ place, t.texts[place]? = some text ∧ Symbol.ofPlace place = s

section

variable {t : SymbolTable} {given : List String} {text other : String} {s : Symbol}

/-! ## 1. Single calls -/

theorem getElem?_push_eq_some_iff {α : Type} {xs : Array α} {x y : α} {i : Nat} :
    (xs.push x)[i]? = some y ↔ xs[i]? = some y ∨ i = xs.size ∧ x = y := by
  rw [Array.getElem?_push]
  split
  · rename_i hlast
    simp [hlast]
  · rename_i hbefore
    simp [hbefore]

theorem insert_of_find? (h : t.find? text = some s) : t.insert text = (s, t) := by
  rw [insert, h]

theorem insert_of_new (h : t.find? text = none) :
    t.insert text = (.ofPlace t.texts.size,
      { texts := t.texts.push text
        symbols := t.symbols.insert text (.ofPlace t.texts.size) }) := by
  rw [insert, h]

theorem find?_insert_of_new (h : t.find? text = none) (other : String) :
    (t.insert text).2.find? other =
      if text = other then some (.ofPlace t.texts.size) else t.find? other := by
  rw [insert_of_new h, find?, Std.HashMap.getElem?_insert]
  simp only [beq_iff_eq, find?]

theorem find?_insert_self (t : SymbolTable) (text : String) :
    (t.insert text).2.find? text = some (t.insert text).1 := by
  cases h : t.find? text with
  | some s => rw [insert_of_find? h, h]
  | none => rw [find?_insert_of_new h, if_pos rfl, insert_of_new h]

/-- A text that has a symbol keeps it, whatever else is brought in. -/
theorem find?_insert_of_find? (h : t.find? text = some s) (other : String) :
    (t.insert other).2.find? text = some s := by
  cases hother : t.find? other with
  | some _ => rw [insert_of_find? hother, h]
  | none =>
    have hne : other ≠ text := by
      rintro rfl
      cases hother.symm.trans h
    rw [find?_insert_of_new hother, if_neg hne, h]

theorem find?_perform (h : t.find? text = some s) (call : SymbolCall) :
    (call.perform t).find? text = some s := by
  cases call with
  | insert other => exact find?_insert_of_find? h other
  | find _ => exact h

theorem find?_of_answer? {call : SymbolCall} (h : call.answer? t = some s) :
    (call.perform t).find? call.text = some s := by
  cases call with
  | insert text => exact (find?_insert_self t text).trans h
  | find _ => exact h

/-! ## 2. What a table has been given -/

namespace Numbers

theorem nodup (h : t.Numbers given) : t.texts.toList.Nodup :=
  h.texts ▸ nodup_eraseDups given

theorem mem_iff (h : t.Numbers given) :
    text ∈ given ↔ ∃ place : Nat, t.texts[place]? = some text := by
  rw [← Array.mem_iff_getElem?, ← Array.mem_toList_iff, h.texts, List.mem_eraseDups]

theorem find?_isSome_iff (h : t.Numbers given) : (t.find? text).isSome ↔ text ∈ given := by
  rw [Option.isSome_iff_exists, h.mem_iff]
  constructor
  · rintro ⟨s, hs⟩
    obtain ⟨place, hplace, -⟩ := (h.find?_eq_some_iff text s).mp hs
    exact ⟨place, hplace⟩
  · rintro ⟨place, hplace⟩
    exact ⟨_, (h.find?_eq_some_iff text _).mpr ⟨place, hplace, rfl⟩⟩

/-- A new text gets the place behind the others. -/
theorem insert_new (h : t.Numbers given) (hnew : text ∉ given) :
    (t.insert text).2.Numbers (given ++ [text]) := by
  have hnone : t.find? text = none :=
    Option.not_isSome_iff_eq_none.mp fun hsome => hnew (h.find?_isSome_iff.mp hsome)
  have htexts : (t.insert text).2.texts = t.texts.push text := by rw [insert_of_new hnone]
  refine ⟨by rw [htexts, Array.toList_push, eraseDups_concat, if_neg hnew, h.texts], ?_⟩
  intro other s
  -- the places are the old ones, which answer as before, and the last, which is of `text` only
  simp only [htexts, getElem?_push_eq_some_iff, or_and_right, exists_or]
  rw [← h.find?_eq_some_iff, find?_insert_of_new hnone]
  by_cases heq : text = other
  · subst heq
    simp [hnone]
  · simp [heq]

theorem insert (h : t.Numbers given) (text : String) :
    (t.insert text).2.Numbers (given ++ [text]) := by
  by_cases hmem : text ∈ given
  · obtain ⟨s, hs⟩ := Option.isSome_iff_exists.mp (h.find?_isSome_iff.mpr hmem)
    rw [insert_of_find? hs]
    exact ⟨by rw [eraseDups_concat, if_pos hmem, h.texts], h.find?_eq_some_iff⟩
  · exact h.insert_new hmem

theorem perform (h : t.Numbers given) (call : SymbolCall) :
    (call.perform t).Numbers (given ++ call.inserted?.toList) := by
  cases call with
  | insert text => exact h.insert text
  | find _ =>
    rw [SymbolCall.inserted?, Option.toList_none, List.append_nil]
    exact h

theorem performAll (h : t.Numbers given) (calls : List SymbolCall) :
    (t.performAll calls).Numbers (given ++ insertedTexts calls) := by
  induction calls generalizing t given with
  | nil =>
    rw [insertedTexts, List.filterMap_nil, List.append_nil]
    exact h
  | cons call rest ih =>
    have hrest := ih (h.perform call)
    rw [List.append_assoc] at hrest
    have hsplit : insertedTexts (call :: rest) = call.inserted?.toList ++ insertedTexts rest := by
      cases call <;> rfl
    rw [hsplit]
    exact hrest

end Numbers

theorem numbers_empty : empty.Numbers [""] := by
  refine ⟨rfl, fun text s => ?_⟩
  have hfind : empty.find? text = if "" = text then some ⟨0⟩ else none := by
    rw [find?, empty, Std.HashMap.getElem?_insert]
    simp
  rw [hfind]
  constructor
  · intro h
    split at h
    · rename_i heq
      exact ⟨0, congrArg some heq, Option.some.inj h⟩
    · cases h
  · rintro ⟨place, hplace, rfl⟩
    obtain ⟨rfl, rfl⟩ : place = 0 ∧ "" = text := by
      simpa [empty, List.getElem?_singleton] using hplace
    rfl

/-- Whatever is called on an empty table, it numbers the empty text and the texts
that were brought in. -/
theorem numbers_performAll (calls : List SymbolCall) :
    (empty.performAll calls).Numbers ("" :: insertedTexts calls) :=
  numbers_empty.performAll calls

theorem find?_performAll (h : t.find? text = some s) (calls : List SymbolCall) :
    (t.performAll calls).find? text = some s := by
  induction calls generalizing t with
  | nil => exact h
  | cons call rest ih => exact ih (find?_perform h call)

/-- A symbol that was returned for a text is found for it ever after. -/
theorem Answered.find? {calls : List SymbolCall} (h : Answered calls text s) :
    (empty.performAll calls).find? text = some s := by
  obtain ⟨before, call, after, rfl, rfl, hanswer⟩ := h
  rw [performAll, List.foldl_append]
  exact find?_performAll (find?_of_answer? hanswer) after

/-! ## 3. Texts and symbols -/

namespace Numbers

theorem size_eq (h : t.Numbers given) : t.size = given.toFinset.card := by
  have hsame : given.toFinset = t.texts.toList.toFinset := by
    ext text
    rw [List.mem_toFinset, List.mem_toFinset, h.texts, List.mem_eraseDups]
  rw [hsame, List.toFinset_card_of_nodup h.nodup]
  exact Array.length_toList.symm

/-- While all places fit into symbols, text and symbol lead to each other. -/
theorem find?_eq_some_iff_text? (h : t.Numbers given) (hfit : t.size ≤ UInt32.size) :
    t.find? text = some s ↔ t.text? s = some text := by
  have hfits : ∀ place, t.texts[place]? = some text → Symbol.ofPlace place = ⟨place⟩ := by
    intro place hplace
    obtain ⟨hlt, -⟩ := Array.getElem?_eq_some_iff.mp hplace
    exact Symbol.ofPlace_of_lt (Nat.lt_of_lt_of_le hlt hfit)
  rw [h.find?_eq_some_iff, text?]
  constructor
  · rintro ⟨place, hplace, rfl⟩
    rw [hfits place hplace]
    exact hplace
  · exact fun htext => ⟨s.number, htext, hfits _ htext⟩

/-- There are enough symbols to tell all texts apart exactly if there are no more
than `2 ^ 32` texts: the next one gets the symbol of the empty text. -/
theorem find?_injective_iff (h : t.Numbers given) :
    (∀ text other s, t.find? text = some s → t.find? other = some s → text = other) ↔
      t.size ≤ UInt32.size := by
  constructor
  · intro hinjective
    by_contra hmany
    have hlast : UInt32.size < t.texts.size := Nat.lt_of_not_le hmany
    have hfirst : 0 < t.texts.size := Nat.zero_lt_of_lt hlast
    have hsame : t.texts[0] = t.texts[UInt32.size] := by
      refine hinjective _ _ ⟨0⟩ ?_ ?_
      · exact (h.find?_eq_some_iff _ _).mpr ⟨0, Array.getElem?_eq_getElem hfirst, rfl⟩
      · exact (h.find?_eq_some_iff _ _).mpr ⟨UInt32.size, Array.getElem?_eq_getElem hlast, rfl⟩
    exact absurd (h.nodup.getElem_inj_iff.mp hsame) (by decide)
  · intro hfit text other s htext hother
    rw [h.find?_eq_some_iff_text? hfit] at htext hother
    exact Option.some.inj (htext.symm.trans hother)

/-- Of two texts the one that was given first stands first. -/
theorem idxOf_lt_of_place_lt (h : t.Numbers given) {i j : Nat} (hi : t.texts[i]? = some text)
    (hj : t.texts[j]? = some other) (hlt : i < j) : given.idxOf text < given.idxOf other := by
  obtain ⟨hilt, rfl⟩ := Array.getElem?_eq_some_iff.mp hi
  obtain ⟨hjlt, rfl⟩ := Array.getElem?_eq_some_iff.mp hj
  have hpairs := pairwise_eraseDups given
  rw [← h.texts] at hpairs
  exact List.pairwise_iff_getElem.mp hpairs i j hilt hjlt hlt

theorem place_lt_iff (h : t.Numbers given) {i j : Nat} (hi : t.texts[i]? = some text)
    (hj : t.texts[j]? = some other) : i < j ↔ given.idxOf text < given.idxOf other := by
  refine ⟨h.idxOf_lt_of_place_lt hi hj, fun hlt => ?_⟩
  rcases Nat.lt_trichotomy i j with hij | rfl | hji
  · exact hij
  · cases hi.symm.trans hj
    exact absurd hlt (Nat.lt_irrefl _)
  · exact absurd hlt (Nat.lt_asymm (h.idxOf_lt_of_place_lt hj hi hji))

end Numbers

theorem size_performAll (calls : List SymbolCall) :
    (empty.performAll calls).size = 1 + ((insertedTexts calls).toFinset.erase "").card := by
  rw [(numbers_performAll calls).size_eq, List.toFinset_cons, Nat.add_comm,
    ← Finset.erase_insert_eq_erase, Finset.card_erase_add_one (Finset.mem_insert_self _ _)]

theorem text_of_text? (h : t.text? s = some text) : t.text s = text := by
  rw [SymbolTable.text, h, Option.getD_some]

theorem text?_of_size_le (h : t.size ≤ s.number) : t.text? s = none :=
  Array.getElem?_eq_none h

end

/-- In the table that `calls` have built, texts and symbols stand for each other. -/
structure Bijective (t : SymbolTable) (calls : List SymbolCall) : Prop where
  /-- The empty text and the texts brought in have symbols, which read as the texts. -/
  find?_isSome_iff : ∀ text, (t.find? text).isSome ↔ text = "" ∨ .insert text ∈ calls
  text?_of_find? : ∀ text s, t.find? text = some s → t.text? s = some text
  /-- The symbols below the size are those of texts, and the others read as nothing. -/
  known : ∀ s, s.number < t.size → ∃ text, t.text? s = some text ∧ t.text s = text ∧
    t.find? text = some s
  unknown : ∀ s, t.size ≤ s.number → t.text? s = none ∧ t.text s = ""
  /-- What was once returned for a text is its symbol still, and will be returned again. -/
  kept : ∀ text s, Answered calls text s → t.text? s = some text ∧ t.text s = text ∧
    t.find? text = some s ∧ t.insert text = (s, t)
  distinct : ∀ text other s s', t.find? text = some s → t.find? other = some s' →
    (s = s' ↔ text = other)
  emptyText : t.find? "" = some ⟨0⟩ ∧ t.insert "" = (⟨0⟩, t)
  /-- Symbols are numbered without gaps, in the order in which their texts first came. -/
  size_eq : t.size = 1 + ((insertedTexts calls).toFinset.erase "").card
  number_lt_iff : ∀ text other s s', t.find? text = some s → t.find? other = some s' →
    (s.number < s'.number ↔
      ("" :: insertedTexts calls).idxOf text < ("" :: insertedTexts calls).idxOf other)

/-- Whatever is called on an empty table, with fewer than `2 ^ 32` different texts
brought in: texts and symbols stand for each other. -/
theorem bijective_performAll (calls : List SymbolCall)
    (hfew : (insertedTexts calls).toFinset.card < UInt32.size) :
    (empty.performAll calls).Bijective calls := by
  have hnumbers := numbers_performAll calls
  have hsize := size_performAll calls
  have hfit : (empty.performAll calls).size ≤ UInt32.size := by
    have herase := Finset.card_erase_le (s := (insertedTexts calls).toFinset) (a := "")
    omega
  -- each part is this equivalence, seen from the text or from the symbol
  have hiff : ∀ {text s}, (empty.performAll calls).find? text = some s ↔
      (empty.performAll calls).text? s = some text := hnumbers.find?_eq_some_iff_text? hfit
  have hempty : (empty.performAll calls).find? "" = some ⟨0⟩ :=
    find?_performAll Std.HashMap.getElem?_insert_self calls
  refine
    { find?_isSome_iff := fun text => ?_
      text?_of_find? := fun _ _ => hiff.mp
      known := fun s hlt => ?_
      unknown := fun s hge => ?_
      kept := fun text s hanswered => ?_
      distinct := fun text other s s' htext hother => ⟨?_, ?_⟩
      emptyText := ⟨hempty, insert_of_find? hempty⟩
      size_eq := hsize
      number_lt_iff := fun text other s s' htext hother => ?_ }
  · rw [hnumbers.find?_isSome_iff, List.mem_cons, SymbolCall.mem_insertedTexts]
  · have htext : (empty.performAll calls).text? s = some _ := Array.getElem?_eq_getElem hlt
    exact ⟨_, htext, text_of_text? htext, hiff.mpr htext⟩
  · have hnone := text?_of_size_le hge
    exact ⟨hnone, by rw [text, hnone, Option.getD_none]⟩
  · have hfind := hanswered.find?
    exact ⟨hiff.mp hfind, text_of_text? (hiff.mp hfind), hfind, insert_of_find? hfind⟩
  · rintro rfl
    exact hnumbers.find?_injective_iff.mpr hfit text other s htext hother
  · rintro rfl
    exact Option.some.inj (htext.symm.trans hother)
  · rw [hiff, text?] at htext hother
    exact hnumbers.place_lt_iff htext hother

/-- Calls that ask for `List` twice, with the empty text and `T` in between. -/
def nameCalls : List SymbolCall :=
  [.find "T", .insert "List", .insert "", .insert "T", .insert "List"]

theorem bijective_performAll_names :
    (insertedTexts nameCalls).toFinset.card < UInt32.size ∧ Answered nameCalls "List" ⟨1⟩ ∧
    (empty.performAll nameCalls).size = 3 ∧
    (empty.performAll nameCalls).text? ⟨1⟩ = some "List" ∧
    (empty.performAll nameCalls).insert "List" = (⟨1⟩, empty.performAll nameCalls) ∧
    (empty.performAll nameCalls).find? "" = some ⟨0⟩ ∧
    (empty.performAll nameCalls).text? ⟨3⟩ = none := by
  have hfew : (insertedTexts nameCalls).toFinset.card < UInt32.size :=
    Nat.lt_of_le_of_lt (List.toFinset_card_le _) (by decide)
  have hanswered : Answered nameCalls "List" ⟨1⟩ := by
    refine ⟨[.find "T"], .insert "List", [.insert "", .insert "T", .insert "List"], rfl, rfl, ?_⟩
    have hnew : empty.find? "List" = none := by simp [find?, empty]
    exact congrArg (some ·.1) (insert_of_new hnew)
  have hbijective := bijective_performAll nameCalls hfew
  have hsize : (empty.performAll nameCalls).size = 3 := by
    rw [hbijective.size_eq]
    decide
  obtain ⟨htext, -, -, hinsert⟩ := hbijective.kept "List" ⟨1⟩ hanswered
  exact ⟨hfew, hanswered, hsize, htext, hinsert, hbijective.emptyText.1,
    (hbijective.unknown ⟨3⟩ hsize.le).1⟩

end SymbolTable

end Generics

/-
Generics.Proofs.Library.Answers — an embedded library gives the same answers.

An answer is compared as it is shown: the bound types written out, or the error.
Written argument types that a library can resolve are resolved to the same types,
renamed, in a library that it is embedded in. The only error that may go away there
is that an application is missing. So all other calls are answered alike
(`Embeds.answer_or_missing`), and libraries that are embedded in each other answer
all calls alike (`Embeds.answer_of_both`).
-/
import Generics.Library.Basic
import Generics.Proofs.Hierarchy.Embedding
import Generics.Proofs.Inference.Embedding

namespace Generics

/-! ## 1. Written types -/

namespace Hierarchy

open Catalog (Embeds)

variable {φ : TypeId → TypeId} {h h' : Hierarchy}

mutual

/-- An expression stands for the renamed type, or has the same error, unless an
application is missing. -/
theorem resolve_rename (hφ : Embeds φ h.catalog h'.catalog) (source : String) :
    (e : TypeExpr) → h'.resolve source e = (h.resolve source e).map φ ∨
      h.resolve source e = .error (.notMaterialized source)
  | .mk name args => by
    rw [resolve, resolve, hφ.lookupName?]
    cases hname : h.catalog.lookupName? name with
    | none => exact .inl rfl
    | some id =>
      have hlength : (h'.catalog.params (φ id)).length = (h.catalog.params id).length := by
        rw [hφ.params, List.length_map]
      have hdisplay := hφ.display (hφ.source.knows_of_lookupName? hname)
      simp only [Option.map_some, hlength, hdisplay]
      split
      · exact .inl rfl
      split
      · exact .inl rfl
      split
      · exact .inl rfl
      rcases resolveAll_rename hφ source args with hall | hall
      · rw [hall]
        cases h.resolveAll source args with
        | error e => exact .inl rfl
        | ok ids =>
          cases happ : h.catalog.application? id ids with
          | none => exact .inr (by simp [happ])
          | some x => exact .inl (by simp [happ, hφ.application? happ, Except.map])
      · exact .inr (by rw [hall])

theorem resolveAll_rename (hφ : Embeds φ h.catalog h'.catalog) (source : String) :
    (es : List TypeExpr) → h'.resolveAll source es = (h.resolveAll source es).map (List.map φ) ∨
      h.resolveAll source es = .error (.notMaterialized source)
  | [] => .inl rfl
  | e :: rest => by
    rw [resolveAll, resolveAll]
    rcases resolve_rename hφ source e with hhead | hhead
    · rw [hhead]
      cases h.resolve source e with
      | error e => exact .inl rfl
      | ok id =>
        rcases resolveAll_rename hφ source rest with hrest | hrest
        · refine .inl ?_
          simp only [Except.map, hrest]
          cases h.resolveAll source rest <;> rfl
        · exact .inr (by simp [hrest, Except.map])
    · exact .inr (by rw [hhead])

end

theorem resolveText_rename (hφ : Embeds φ h.catalog h'.catalog) (text : String) :
    h'.resolveText text = (h.resolveText text).map φ ∨
      h.resolveText text = .error (.notMaterialized text) := by
  rw [resolveText, resolveText]
  cases TypeExpr.read text with
  | error e => exact .inl rfl
  | ok e => exact resolve_rename hφ text e

/-- A written type that is resolved is known. -/
theorem knows_of_resolveText (hc : h.catalog.WellFormed) {text : String} {id : TypeId}
    (hok : h.resolveText text = .ok id) : h.catalog.knows id = true := by
  rw [resolveText] at hok
  cases hread : TypeExpr.read text with
  | error e => simp [hread] at hok
  | ok e =>
    rcases e with ⟨name, args⟩
    simp only [hread, resolve] at hok
    cases hname : h.catalog.lookupName? name with
    | none => simp [hname] at hok
    | some d =>
      have hd := hc.knows_of_lookupName? hname
      simp only [hname] at hok
      split at hok
      · cases hok
        exact hd
      split at hok
      · cases hok
      split at hok
      · cases hok
      split at hok
      · cases hok
      · rename_i ids _
        split at hok
        · rename_i happ
          cases hok
          exact hc.knows_of_application? hd happ
        · cases hok

end Hierarchy

/-! ## 2. Calls -/

namespace Library

/-- The answer to a call as it is shown: each type parameter and the type bound to
it written out, or the error. -/
def answer (l : Library) (method : String) (arguments : List String) :
    Except LibraryError (List (String × String)) :=
  (l.infer method arguments).map l.hierarchy.catalog.displayBindings

/-- Everything in the finished library `l` stands in `l'`, with the numbers renamed. -/
structure Embeds (φ : TypeId → TypeId) (l l' : Library) : Prop where
  catalog : Catalog.Embeds φ l.hierarchy.catalog l'.hierarchy.catalog
  uncut : l.hierarchy.catalog.Uncut
  uncut' : l'.hierarchy.catalog.Uncut
  options : l'.options = l.options
  method? : ∀ name, l'.method? name = (l.method? name).map (Method.rename φ)
  known : ∀ {name m}, l.method? name = some m → ∀ x ∈ m.typeParams ++ m.params,
    l.hierarchy.catalog.knows x = true

variable {φ ψ : TypeId → TypeId} {l l' : Library} {method : String} {arguments : List String}

/-- Resolved arguments are resolved one by one. -/
theorem map_resolveText {ids : List TypeId} (hok : l.resolveArguments arguments = .ok ids) :
    arguments.map l.hierarchy.resolveText = ids.map .ok := by
  induction arguments generalizing ids with
  | nil =>
    cases hok
    rfl
  | cons text rest ih =>
    rw [resolveArguments] at hok
    cases hhead : l.hierarchy.resolveText text with
    | error e => simp [hhead] at hok
    | ok id =>
      cases hrest : l.resolveArguments rest with
      | error e => simp [hhead, hrest, Except.map] at hok
      | ok others =>
        simp only [hhead, hrest, Except.map, Except.ok.injEq] at hok
        subst hok
        rw [List.map_cons, List.map_cons, hhead, ih hrest]

theorem knows_of_resolveArguments (hc : l.hierarchy.catalog.WellFormed) {ids : List TypeId}
    (hok : l.resolveArguments arguments = .ok ids) {a : TypeId} (ha : a ∈ ids) :
    l.hierarchy.catalog.knows a = true := by
  have hmem : Except.ok a ∈ arguments.map l.hierarchy.resolveText := by
    rw [map_resolveText hok]
    exact List.mem_map_of_mem ha
  obtain ⟨text, -, htext⟩ := List.mem_map.mp hmem
  exact Hierarchy.knows_of_resolveText hc htext

/-- Arguments are resolved alike if each of them is. -/
theorem resolveArguments_rename
    (heach : ∀ text ∈ arguments,
      l'.hierarchy.resolveText text = (l.hierarchy.resolveText text).map φ) :
    l'.resolveArguments arguments = (l.resolveArguments arguments).map (List.map φ) := by
  induction arguments with
  | nil => rfl
  | cons text rest ih =>
    rw [resolveArguments, resolveArguments, heach text List.mem_cons_self,
      ih fun text htext => heach text (List.mem_cons_of_mem _ htext)]
    cases l.hierarchy.resolveText text with
    | error e => rfl
    | ok id => cases l.resolveArguments rest <;> rfl

/-- Arguments are resolved alike unless an application is missing. -/
theorem resolveArguments_or_missing
    (hφ : Catalog.Embeds φ l.hierarchy.catalog l'.hierarchy.catalog) (arguments : List String) :
    l'.resolveArguments arguments = (l.resolveArguments arguments).map (List.map φ) ∨
      ∃ text, l.resolveArguments arguments = .error (.notMaterialized text) := by
  induction arguments with
  | nil => exact .inl rfl
  | cons text rest ih =>
    rw [resolveArguments, resolveArguments]
    rcases Hierarchy.resolveText_rename hφ text with hhead | hhead
    · rw [hhead]
      cases l.hierarchy.resolveText text with
      | error e => exact .inl rfl
      | ok id =>
        rcases ih with hrest | ⟨other, hrest⟩
        · refine .inl ?_
          simp only [Except.map, hrest]
          cases l.resolveArguments rest <;> rfl
        · exact .inr ⟨other, by simp [hrest, Except.map]⟩
    · exact .inr ⟨text, by rw [hhead]⟩

namespace Embeds

/-- Where arguments are resolved alike, calls are answered alike. -/
theorem answer (h : Embeds φ l l')
    (harguments : l'.resolveArguments arguments = (l.resolveArguments arguments).map (List.map φ)) :
    l'.answer method arguments = l.answer method arguments := by
  rw [Library.answer, Library.answer, infer, infer, h.method?, harguments, h.options]
  cases hmethod : l.method? method with
  | none => rfl
  | some m =>
    have hknown := h.known hmethod
    have hparams : ∀ x ∈ m.params, l.hierarchy.catalog.knows x = true := fun x hx =>
      hknown x (List.mem_append_right _ hx)
    have htypeParams : ∀ x ∈ m.typeParams, l.hierarchy.catalog.knows x = true := fun x hx =>
      hknown x (List.mem_append_left _ hx)
    cases hids : l.resolveArguments arguments with
    | error e => rfl
    | ok ids =>
      have hargs : ∀ a ∈ ids, l.hierarchy.catalog.knows a = true := fun a ha =>
        knows_of_resolveArguments h.catalog.source hids ha
      simp only [Option.map_some, Except.map, h.catalog.infer h.uncut h.uncut' hparams hargs]
      cases hinfer : l.hierarchy.catalog.infer l.options m ids with
      | error e => rfl
      | ok i =>
        have hbound := h.catalog.displayBindings fun b hb =>
          h.catalog.source.knows_of_mem_bindings htypeParams hargs hinfer hb
        exact congrArg Except.ok hbound

/-- A call is answered alike unless an application in its arguments is missing. -/
theorem answer_or_missing (h : Embeds φ l l') (method : String) (arguments : List String) :
    l'.answer method arguments = l.answer method arguments ∨
      ∃ text, l.answer method arguments = .error (.notMaterialized text) := by
  rcases resolveArguments_or_missing h.catalog arguments with halike | ⟨text, hmissing⟩
  · exact .inl (h.answer halike)
  · cases hmethod : l.method? method with
    | none =>
      left
      simp [Library.answer, infer, h.method?, hmethod, Except.map]
    | some m =>
      right
      exact ⟨text, by simp [Library.answer, infer, hmethod, hmissing, Except.map]⟩

/-- Libraries that are embedded in each other answer alike: what is missing in one is
missing in the other. -/
theorem answer_of_both (h : Embeds φ l l') (h' : Embeds ψ l' l) :
    l'.answer method arguments = l.answer method arguments := by
  refine h.answer (resolveArguments_rename fun text _ => ?_)
  rcases Hierarchy.resolveText_rename h.catalog text with halike | hmissing
  · exact halike
  · rcases Hierarchy.resolveText_rename h'.catalog text with halike | hmissing'
    · rw [hmissing] at halike ⊢
      cases hresult : l'.hierarchy.resolveText text with
      | ok id => simp [hresult, Except.map] at halike
      | error e =>
        simp only [hresult, Except.map, Except.error.injEq] at halike
        rw [← halike]
        rfl
    · rw [hmissing, hmissing']
      rfl

end Embeds

end Library

/-! ## 3. Finished drafts -/

namespace LibraryDraft

theorem finish_eq_ok_iff {d : LibraryDraft} {l : Library} :
    d.finish = .ok l ↔
      d.catalog.finish = .ok l.hierarchy ∧ l.methods = d.methods ∧ l.options = d.options := by
  rw [finish]
  cases d.catalog.finish with
  | error e => exact ⟨nofun, nofun⟩
  | ok h =>
    simp only [Except.ok.injEq]
    constructor
    · rintro rfl
      exact ⟨rfl, rfl, rfl⟩
    · rintro ⟨rfl, hmethods, hoptions⟩
      rw [← hmethods, ← hoptions]

theorem method?_of_finish {d : LibraryDraft} {l : Library} (h : d.finish = .ok l)
    (name : String) : l.method? name = d.method? name := by
  obtain ⟨-, hmethods, -⟩ := finish_eq_ok_iff.mp h
  rw [Library.method?, hmethods, method?]

/-- Everything in the draft `d` stands in `d'`, with the numbers renamed. -/
structure Embeds (φ : TypeId → TypeId) (d d' : LibraryDraft) : Prop where
  catalog : Catalog.Embeds φ d.catalog d'.catalog
  options : d'.options = d.options
  method? : ∀ name, d'.method? name = (d.method? name).map (Method.rename φ)
  known : ∀ {name m}, d.method? name = some m → ∀ x ∈ m.typeParams ++ m.params,
    d.catalog.knows x = true

namespace Embeds

variable {φ : TypeId → TypeId} {d d' : LibraryDraft}

theorem finish_ok (h : Embeds φ d d') {l' : Library} (hfinish' : d'.finish = .ok l') :
    ∃ l, d.finish = .ok l := by
  obtain ⟨hierarchy, hfinish⟩ := h.catalog.finish_ok (finish_eq_ok_iff.mp hfinish').1
  exact ⟨⟨hierarchy, d.methods, d.options⟩, finish_eq_ok_iff.mpr ⟨hfinish, rfl, rfl⟩⟩

/-- Finished libraries are embedded if their drafts are. -/
theorem of_finish (h : Embeds φ d d') {l l' : Library} (hfinish : d.finish = .ok l)
    (hfinish' : d'.finish = .ok l') : ∃ ψ, Library.Embeds ψ l l' := by
  obtain ⟨hcatalog, -, hoptions⟩ := finish_eq_ok_iff.mp hfinish
  obtain ⟨hcatalog', -, hoptions'⟩ := finish_eq_ok_iff.mp hfinish'
  obtain ⟨ψ, hψ, hagree⟩ := h.catalog.of_finish hcatalog hcatalog'
  refine ⟨ψ, hψ, h.catalog.source.uncut hcatalog, h.catalog.target.uncut hcatalog', ?_,
    fun name => ?_, fun {name m} hm x hx => ?_⟩
  · rw [hoptions, hoptions', h.options]
  · rw [method?_of_finish hfinish, method?_of_finish hfinish', h.method?]
    exact Option.map_congr fun m hm =>
      Method.rename_congr fun x hx => (hagree x (h.known hm x hx)).symm
  · rw [method?_of_finish hfinish] at hm
    exact (h.catalog.source.preserves_of_finish hcatalog).knows (h.known hm x hx)

end Embeds

end LibraryDraft

end Generics

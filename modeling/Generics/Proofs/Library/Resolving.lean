/-
Generics.Proofs.Library.Resolving — resolving further types changes no answer.

Resolving a written type enters the applications that it mentions, also those to
the left of a fault. All of them are beside what a draft has: nothing in it changes,
so the draft is embedded in the one after any number of such calls, with every type
under its own number, and the finished libraries answer alike. What the larger one
can answer beyond that are calls whose argument types the smaller one does not have.
-/
import Mathlib.Tactic.IntervalCases
import Generics.Proofs.Hierarchy.Acyclic
import Generics.Proofs.Library.Answers
import Generics.Proofs.Library.Loading
import Generics.Proofs.TypeExpr.Automaton

namespace Generics

open Catalog

/-! ## 1. Growing drafts -/

namespace LibraryDraft

/-- The draft after written types have been resolved one after the other, whether
that succeeds or fails. -/
def resolveEach (d : LibraryDraft) (texts : List String) : LibraryDraft :=
  texts.foldl (fun d text => (d.resolve text).2) d

/-- `d'` is `d` with further applications. -/
structure Grows (d d' : LibraryDraft) : Prop where
  catalog : Catalog.Grows (fun _ => True) d.catalog d'.catalog
  methods : d'.methods = d.methods
  options : d'.options = d.options

/-- Resolving finds the type with the tree of the text, if the text stands for one. -/
theorem outcome_resolve {d : LibraryDraft} (hc : d.catalog.WellFormed) (text : String) :
    Load.Outcome (fun _ => True) d.catalog
      (fun id c => c.knows id = true ∧ d.catalog.treeOfText? [] text = some (c.tree id))
      (d.catalog.treeOfText? [] text = none) ((d.resolve text).1, (d.resolve text).2.catalog) :=
  Load.outcome_resolveText hc Scope.fits_nil text fun _ _ => trivial

theorem grows_resolve {d : LibraryDraft} (hc : d.catalog.WellFormed) (text : String) :
    d.Grows (d.resolve text).2 :=
  ⟨(outcome_resolve hc text).grows, rfl, rfl⟩

theorem grows_resolveEach {d : LibraryDraft} (hc : d.catalog.WellFormed) (texts : List String) :
    d.Grows (d.resolveEach texts) := by
  induction texts generalizing d with
  | nil => exact ⟨.refl hc, rfl, rfl⟩
  | cons text rest ih =>
    have hstep := grows_resolve hc text
    have hrest := ih hstep.catalog.wellFormed
    exact ⟨hstep.catalog.trans hrest.catalog, hrest.methods.trans hstep.methods,
      hrest.options.trans hstep.options⟩

/-- A draft is embedded in a grown one, with every type under its own number. -/
theorem Grows.embeds {d d' : LibraryDraft} (h : d.Grows d') (hc : d.catalog.WellFormed)
    (hknown : ∀ m ∈ d.methods, ∀ x ∈ m.typeParams ++ m.params, d.catalog.knows x = true) :
    ∃ φ, LibraryDraft.Embeds φ d d' := by
  have hmethod : ∀ {name m}, d.method? name = some m → ∀ x ∈ m.typeParams ++ m.params,
      d.catalog.knows x = true := fun hm => hknown _ (List.mem_of_find?_eq_some hm)
  refine ⟨_, hc.embeds_of_kept h.catalog.wellFormed h.catalog.kept h.catalog.declared, h.options,
    fun name => ?_, hmethod⟩
  rw [method?, h.methods, ← method?]
  cases hm : d.method? name with
  | none => rfl
  | some m =>
    have hsame : m.rename (renamingOn d.catalog.knows d'.catalog.size fun x => x) =
        m.rename fun x => x :=
      Method.rename_congr fun x hx => renamingOn_of_pos (hmethod hm x hx) _ _
    rw [Option.map_some, hsame, Method.rename, List.map_id', List.map_id']

end LibraryDraft

/-- Resolving more argument types changes no inference. Take a draft of a schema in
which written types have been resolved, then resolve more of them, each with success
or not, and finish both. Calls that are inferred from the first are inferred from the
second with the same bindings, written out, and calls whose inference fails in the
first fail in the second with the same error. -/
theorem Library.answer_of_resolved_more {s : Schema} {d : LibraryDraft}
    (hschema : LibraryDraft.ofSchema s = .ok d) (before more : List String) {l l' : Library}
    (hfinish : (d.resolveEach before).finish = .ok l)
    (hfinish' : ((d.resolveEach before).resolveEach more).finish = .ok l')
    (method : String) (arguments : List String) :
    (∀ bindings, l.answer method arguments = .ok bindings →
      l'.answer method arguments = .ok bindings) ∧
    ∀ e, l.answer method arguments = .error (.inference e) →
      l'.answer method arguments = .error (.inference e) := by
  have hloaded := LibraryDraft.loaded hschema
  have hbefore := LibraryDraft.grows_resolveEach hloaded.wellFormed before
  have hmore := LibraryDraft.grows_resolveEach hbefore.catalog.wellFormed more
  obtain ⟨φ, hφ⟩ := hmore.embeds hbefore.catalog.wellFormed fun m hm x hx =>
    hbefore.catalog.preserves.knows (hloaded.knows_of_mem (hbefore.methods ▸ hm) x hx)
  obtain ⟨ψ, hψ⟩ := hφ.of_finish hfinish hfinish'
  rcases hψ.answer_or_missing method arguments with halike | ⟨text, hmissing⟩
  · rw [halike]
    exact ⟨fun _ h => h, fun _ h => h⟩
  · rw [hmissing]
    exact ⟨nofun, nofun⟩

/-! ## 2. A shelf

A schema with a base and an interface. Finishing it enters types that it does not
mention, one of them for the sake of another, and lists an interface for a type that
inherits it through its base. -/

/-- `Labeled<T>`, `Box<T> : Labeled<T>`, `Crate<T> : Box<T>` and `string`, a method that reads
a label, and one that takes `Crate<string>`. -/
def shelf : Schema where
  types := [{ name := "Labeled", kind := .interfaceType, params := ["T"] },
    { name := "Box", params := ["T"], interfaces := ["Labeled<T>"] },
    { name := "Crate", params := ["T"], base := some "Box<T>" },
    { name := "string" }]
  methods := [{ name := "unlabel", typeParams := ["V"], params := ["Labeled<V>"] },
    { name := "store", params := ["Crate<string>"] }]

/-- The definition `Labeled<T>`. -/
def labeledDefinition : Node :=
  ⟨"Labeled", .interfaceType, .definition [⟨1⟩], 0, none, []⟩

/-- The definition `Box<T>`. -/
def boxDefinition : Node :=
  ⟨"Box", .classType, .definition [⟨3⟩], 0, none, [⟨7⟩]⟩

/-- The applications that `shelf` mentions. -/
def shelfApplications : Std.HashMap (TypeId × List TypeId) TypeId :=
  (((∅ : Std.HashMap (TypeId × List TypeId) TypeId).insert (⟨0⟩, [⟨3⟩]) ⟨7⟩).insert
    (⟨2⟩, [⟨5⟩]) ⟨8⟩).insert (⟨0⟩, [⟨9⟩]) ⟨10⟩ |>.insert (⟨4⟩, [⟨6⟩]) ⟨11⟩

/-- What `shelf` comes to. -/
def shelfDraft : LibraryDraft where
  catalog :=
    { nodes := #[
        labeledDefinition,
        ⟨"T", .classType, .parameter 0, 0, none, []⟩,
        boxDefinition,
        ⟨"T", .classType, .parameter 0, 0, none, []⟩,
        ⟨"Crate", .classType, .definition [⟨5⟩], 0, some ⟨8⟩, []⟩,
        ⟨"T", .classType, .parameter 0, 0, none, []⟩,
        ⟨"string", .classType, .plain, 0, none, []⟩,
        ⟨"Labeled", .interfaceType, .application ⟨0⟩ [⟨3⟩], 1, none, []⟩,
        ⟨"Box", .classType, .application ⟨2⟩ [⟨5⟩], 1, none, []⟩,
        ⟨"V", .classType, .parameter 0, 0, none, []⟩,
        ⟨"Labeled", .interfaceType, .application ⟨0⟩ [⟨9⟩], 1, none, []⟩,
        ⟨"Crate", .classType, .application ⟨4⟩ [⟨6⟩], 1, none, []⟩]
      declared := ((((∅ : Std.HashMap String TypeId).insertIfNew "Labeled" ⟨0⟩).insertIfNew
        "Box" ⟨2⟩).insertIfNew "Crate" ⟨4⟩).insertIfNew "string" ⟨6⟩
      applications := shelfApplications }
  methods := [⟨"unlabel", [⟨9⟩], [⟨10⟩]⟩, ⟨"store", [], [⟨11⟩]⟩]
  options := {}

theorem lookupName?_shelf :
    shelfDraft.catalog.lookupName? "Labeled" = some ⟨0⟩ ∧
      shelfDraft.catalog.lookupName? "Box" = some ⟨2⟩ ∧
      shelfDraft.catalog.lookupName? "Crate" = some ⟨4⟩ ∧
      shelfDraft.catalog.lookupName? "string" = some ⟨6⟩ := by
  simp only [shelfDraft, lookupName?, Std.HashMap.getElem?_insertIfNew]
  simp

theorem Load.run_resolveAll_cons {scope : Scope} {source : String} {e : TypeExpr}
    {rest : List TypeExpr} {c c₁ c' : Catalog} {id : TypeId} {ids : List TypeId}
    (h : (resolve scope source e).run.run c = (.ok id, c₁))
    (hrest : (resolveAll scope source rest).run.run c₁ = (.ok ids, c')) :
    (resolveAll scope source (e :: rest)).run.run c = (.ok (id :: ids), c') := by
  rw [resolveAll, run_bind_ok h, run_bind_ok hrest]
  rfl

theorem Load.run_resolveAll_single {scope : Scope} {source : String} {e : TypeExpr}
    {c c' : Catalog} {id : TypeId} (h : (resolve scope source e).run.run c = (.ok id, c')) :
    (resolveAll scope source [e]).run.run c = (.ok [id], c') :=
  run_resolveAll_cons h rfl

/-- Resolving the name of a type. -/
theorem Load.run_resolve_name {scope : Scope} {source name : String} {c : Catalog} {id : TypeId}
    (hscope : scope.lookup name = none) (hname : c.lookupName? name = some id) :
    (resolve scope source (.mk name [])).run.run c = (.ok id, c) := by
  rw [resolve]
  simp only [hscope]
  rw [run_get_bind]
  simp only [hname]
  rfl

/-- Resolving the application of a definition to something that is there. -/
theorem Load.run_resolveText_application {scope : Scope} {c c' : Catalog} {text head : String}
    {e : TypeExpr} {definition arg id : TypeId} (hread : TypeExpr.read text = .ok (.mk head [e]))
    (hscope : scope.lookup head = none) (hhead : c.lookupName? head = some definition)
    (harg : (resolve scope text e).run.run c = (.ok arg, c))
    (hmade : (instantiate definition [arg]).run.run c = (.ok id, c')) :
    (resolveText scope text).run.run c = (.ok id, c') := by
  rw [resolveText, hread]
  exact (run_resolve_application hscope hhead rfl (run_resolveAll_single harg)).trans
    (run_ofBuild_ok hmade)

theorem read_shelf :
    TypeExpr.read "Labeled<T>" = .ok (.mk "Labeled" [.mk "T" []]) ∧
      TypeExpr.read "Box<T>" = .ok (.mk "Box" [.mk "T" []]) ∧
      TypeExpr.read "Labeled<V>" = .ok (.mk "Labeled" [.mk "V" []]) ∧
      TypeExpr.read "Crate<string>" = .ok (.mk "Crate" [.mk "string" []]) ∧
      TypeExpr.read "Labeled<string>" = .ok (.mk "Labeled" [.mk "string" []]) :=
  ⟨TypeExpr.read_eq_scan _, TypeExpr.read_eq_scan _, TypeExpr.read_eq_scan _,
    TypeExpr.read_eq_scan _, TypeExpr.read_eq_scan _⟩

theorem Load.run_resolveTexts_single {scope : Scope} {text : String} {c c' : Catalog} {id : TypeId}
    (h : (resolveText scope text).run.run c = (.ok id, c')) :
    (resolveTexts scope [text]).run.run c = (.ok [id], c') := by
  rw [resolveTexts, run_bind_ok h]
  rfl

/-- The types of the shelf, without links. -/
def shelfTypes : Catalog :=
  ((((empty.declare .interfaceType "Labeled" ["T"]).2.declare .classType "Box" ["T"]).2.declare
    .classType "Crate" ["T"]).2.declare .classType "string" []).2

/-- With `Labeled<T>`, the interface of `Box<T>`. -/
def shelfLabeled : Catalog :=
  (shelfTypes.addApplication ⟨0⟩ labeledDefinition [⟨3⟩]).2.setNode ⟨2⟩ boxDefinition

/-- With `Box<T>`, the base of `Crate<T>`. -/
def shelfLinks : Catalog :=
  (shelfLabeled.addApplication ⟨2⟩ boxDefinition [⟨5⟩]).2.setNode ⟨4⟩
    ⟨"Crate", .classType, .definition [⟨5⟩], 0, some ⟨8⟩, []⟩

/-- With the parameter type of `unlabel`. -/
def shelfUnlabel : Catalog :=
  ((shelfLinks.addParameters ["V"]).2.addApplication ⟨0⟩ labeledDefinition [⟨9⟩]).2

theorem linkTypes_shelf :
    (Load.linkTypes (shelf.types.zip [⟨0⟩, ⟨2⟩, ⟨4⟩, ⟨6⟩])).run.run shelfTypes =
      (.ok (), shelfLinks) := by
  obtain ⟨hlabeled, hbox, -, -⟩ := lookupName?_shelf
  obtain ⟨hreadLabeled, hreadBox, -⟩ := read_shelf
  have hinterface : (Load.resolveText [("T", ⟨3⟩)] "Labeled<T>").run.run shelfTypes =
      (.ok ⟨7⟩, (shelfTypes.addApplication ⟨0⟩ labeledDefinition [⟨3⟩]).2) :=
    Load.run_resolveText_application hreadLabeled rfl hlabeled rfl
      (instantiate_new ⟨0⟩ [⟨3⟩] rfl rfl rfl (by decide) (by decide)
        Std.HashMap.getElem?_empty (by decide) (by decide))
  have hbase : (Load.resolveText [("T", ⟨5⟩)] "Box<T>").run.run shelfLabeled =
      (.ok ⟨8⟩, (shelfLabeled.addApplication ⟨2⟩ boxDefinition [⟨5⟩]).2) := by
    have happlications : shelfLabeled.applications =
        (∅ : Std.HashMap (TypeId × List TypeId) TypeId).insert (⟨0⟩, [⟨3⟩]) ⟨7⟩ := rfl
    exact Load.run_resolveText_application hreadBox rfl hbox rfl
      (instantiate_new ⟨2⟩ [⟨5⟩] rfl rfl rfl (by decide) (by decide) (by simp [happlications])
        (by decide) (by simp [happlications, Std.HashMap.size_insert, Limits.applications]))
  have hadd : (addInterface ⟨2⟩ ⟨7⟩).run.run (shelfTypes.addApplication ⟨0⟩ labeledDefinition
      [⟨3⟩]).2 = (.ok (), shelfLabeled) := rfl
  have hset : (setBase ⟨4⟩ ⟨8⟩).run.run (shelfLabeled.addApplication ⟨2⟩ boxDefinition
      [⟨5⟩]).2 = (.ok (), shelfLinks) := rfl
  refine Load.run_linkTypes_cons rfl rfl (Load.run_linkTypes_cons rfl
    (Load.run_linkInterfaces_cons hinterface hadd rfl) (Load.run_linkTypes_cons
      (Load.run_linkBase_some hbase hset) rfl rfl))

theorem ofSchema_shelf : LibraryDraft.ofSchema shelf = .ok shelfDraft := by
  obtain ⟨hlabeled, -, hcrate, hstring⟩ := lookupName?_shelf
  obtain ⟨-, -, hreadLabeled, hreadCrate, -⟩ := read_shelf
  have hdeclare : (Load.declareTypes shelf.types).run.run .empty =
      (.ok [⟨0⟩, ⟨2⟩, ⟨4⟩, ⟨6⟩], shelfTypes) := by
    refine Load.run_declareTypes_cons (lookupName?_empty _) (Load.run_declareTypes_cons ?_
      (Load.run_declareTypes_cons ?_ (Load.run_declareTypes_cons ?_ rfl)))
    · rw [lookupName?_declare (by decide)]
      exact lookupName?_empty _
    · rw [lookupName?_declare (by decide), lookupName?_declare (by decide)]
      exact lookupName?_empty _
    · rw [lookupName?_declare (by decide), lookupName?_declare (by decide),
        lookupName?_declare (by decide)]
      exact lookupName?_empty _
  have hunlabel : (Load.resolveText [("V", ⟨9⟩)] "Labeled<V>").run.run
      (shelfLinks.addParameters ["V"]).2 = (.ok ⟨10⟩, shelfUnlabel) := by
    have happlications : (shelfLinks.addParameters ["V"]).2.applications =
        ((∅ : Std.HashMap (TypeId × List TypeId) TypeId).insert (⟨0⟩, [⟨3⟩]) ⟨7⟩).insert
          (⟨2⟩, [⟨5⟩]) ⟨8⟩ := rfl
    exact Load.run_resolveText_application hreadLabeled rfl hlabeled rfl
      (instantiate_new ⟨0⟩ [⟨9⟩] rfl rfl rfl (by decide) (by decide) (by simp [happlications])
        (by decide) (by simp [happlications, Std.HashMap.size_insert, Limits.applications]))
  have hstore : (Load.resolveText [] "Crate<string>").run.run shelfUnlabel =
      (.ok ⟨11⟩, shelfDraft.catalog) := by
    have happlications : shelfUnlabel.applications =
        (((∅ : Std.HashMap (TypeId × List TypeId) TypeId).insert (⟨0⟩, [⟨3⟩]) ⟨7⟩).insert
          (⟨2⟩, [⟨5⟩]) ⟨8⟩).insert (⟨0⟩, [⟨9⟩]) ⟨10⟩ := rfl
    have hnode : shelfUnlabel.node? ⟨4⟩ =
        some ⟨"Crate", .classType, .definition [⟨5⟩], 0, some ⟨8⟩, []⟩ := rfl
    have hmade : (instantiate ⟨4⟩ [⟨6⟩]).run.run shelfUnlabel = (.ok ⟨11⟩, shelfDraft.catalog) :=
      instantiate_new ⟨4⟩ [⟨6⟩] hnode rfl rfl (by decide) (by decide) (by simp [happlications])
        (by decide) (by simp [happlications, Std.HashMap.size_insert, Limits.applications])
    exact Load.run_resolveText_application hreadCrate rfl hcrate
      (Load.run_resolve_name rfl hstring) hmade
  have hrest : (Load.declareMethods ["unlabel"] [⟨"store", [], ["Crate<string>"]⟩]).run.run
      shelfUnlabel = (.ok [⟨"store", [], [⟨11⟩]⟩], shelfDraft.catalog) :=
    Load.run_declareMethods_cons (by decide) (Load.run_resolveTexts_single hstore) rfl
  have hmethods : (Load.declareMethods [] shelf.methods).run.run shelfLinks =
      (.ok shelfDraft.methods, shelfDraft.catalog) :=
    Load.run_declareMethods_cons (by decide) (Load.run_resolveTexts_single hunlabel) hrest
  refine LibraryDraft.ofSchema_eq_ok_iff.mpr ⟨?_, rfl⟩
  rw [Load.schema, Load.run_bind_ok hdeclare, Load.run_bind_ok linkTypes_shelf, hmethods]

/-! ## 3. Finishing the shelf

The base of `Crate<string>` is entered, and for its sake `Labeled<string>`. If the latter has
been asked for before, it is found, and the numbers come out otherwise. -/

/-- `shelfDraft` with `Labeled<string>`. -/
def shelfGrown : Catalog :=
  (shelfDraft.catalog.addApplication ⟨0⟩ labeledDefinition [⟨6⟩]).2

theorem instantiate_shelf :
    (instantiate ⟨0⟩ [⟨6⟩]).run.run shelfDraft.catalog = (.ok ⟨12⟩, shelfGrown) :=
  instantiate_new ⟨0⟩ [⟨6⟩] rfl rfl rfl (by decide) (by decide)
    (by simp [shelfDraft, shelfApplications]) (by decide)
    (by simp [shelfDraft, shelfApplications, Std.HashMap.size_insert, Limits.applications])

/-- The base of `Crate<T>` has got its interface, which is entered. -/
def linkBox (c : Catalog) : Catalog :=
  (c.addApplication ⟨0⟩ labeledDefinition [⟨5⟩]).2.setNode ⟨8⟩
    ⟨"Box", .classType, .application ⟨2⟩ [⟨5⟩], 1, none, [c.nextId]⟩

/-- `Crate<string>` has got its base, which is entered. -/
def linkCrate (c : Catalog) : Catalog :=
  (c.addApplication ⟨2⟩ boxDefinition [⟨6⟩]).2.setNode ⟨11⟩
    ⟨"Crate", .classType, .application ⟨4⟩ [⟨6⟩], 1, some c.nextId, []⟩

/-- `shelfDraft` with all links. -/
def shelfLinked : Catalog :=
  ((linkCrate (linkBox shelfDraft.catalog)).addApplication ⟨0⟩ labeledDefinition [⟨6⟩]).2.setNode
    ⟨13⟩ ⟨"Box", .classType, .application ⟨2⟩ [⟨6⟩], 1, none, [⟨14⟩]⟩

/-- `shelfGrown` with all links. -/
def shelfGrownLinked : Catalog :=
  (linkCrate (linkBox shelfGrown)).setNode ⟨14⟩
    ⟨"Box", .classType, .application ⟨2⟩ [⟨6⟩], 1, none, [⟨12⟩]⟩

section

variable {c c' : Catalog} {id arg link : TypeId}

/-- An application of `Box<T>` gets the interface that `Labeled<T>` becomes. -/
theorem materialize_box
    (hnode : c.node? id = some ⟨"Box", .classType, .application ⟨2⟩ [arg], 1, none, []⟩)
    (hdefinition : c.node? ⟨2⟩ = some boxDefinition)
    (hlabeled : c.node? ⟨7⟩ = some ⟨"Labeled", .interfaceType, .application ⟨0⟩ [⟨3⟩], 1, none, []⟩)
    (hne : arg ≠ ⟨3⟩) (hlink : (instantiate ⟨0⟩ [arg]).run.run c = (.ok link, c')) :
    (materialize id).run.run c = (.ok (), c'.setNode id
      ⟨"Box", .classType, .application ⟨2⟩ [arg], 1, none, [link]⟩) := by
  refine materialize_of_interface hnode rfl hdefinition rfl rfl ?_
  rw [run_substitute_of_parameter hlabeled rfl (by decide) rfl rfl hne, hlink]

/-- An application of `Crate<T>` gets the base that `Box<T>` becomes. -/
theorem materialize_crate
    (hnode : c.node? id = some ⟨"Crate", .classType, .application ⟨4⟩ [arg], 1, none, []⟩)
    (hdefinition : c.node? ⟨4⟩ =
      some ⟨"Crate", .classType, .definition [⟨5⟩], 0, some ⟨8⟩, []⟩)
    {box : Node} (hbox : c.node? ⟨8⟩ = some box) (hform : box.form = .application ⟨2⟩ [⟨5⟩])
    (hne : arg ≠ ⟨5⟩) (hlink : (instantiate ⟨2⟩ [arg]).run.run c = (.ok link, c')) :
    (materialize id).run.run c = (.ok (), c'.setNode id
      ⟨"Crate", .classType, .application ⟨4⟩ [arg], 1, some link, []⟩) := by
  refine materialize_of_base hnode rfl hdefinition rfl rfl ?_
  rw [run_substitute_of_parameter hbox hform (by decide) rfl rfl hne, hlink]

end

theorem materializeFrom_shelf : materializeFrom 0 shelfDraft.catalog = (.ok (), shelfLinked) := by
  have hbefore : ∀ index < 8, (materialize ⟨index⟩).run.run shelfDraft.catalog =
      (.ok (), shelfDraft.catalog) := by
    intro index hlt
    interval_cases index <;> rfl
  have hbox : (materialize ⟨8⟩).run.run shelfDraft.catalog =
      (.ok (), linkBox shelfDraft.catalog) :=
    materialize_box rfl rfl rfl (by decide) (instantiate_new ⟨0⟩ [⟨5⟩] rfl rfl rfl (by decide)
      (by decide) (by simp [shelfDraft, shelfApplications]) (by decide)
      (by simp [shelfDraft, shelfApplications, Std.HashMap.size_insert, Limits.applications]))
  have hmiddle : ∀ index, 9 ≤ index → index < 11 →
      (materialize ⟨index⟩).run.run (linkBox shelfDraft.catalog) =
        (.ok (), linkBox shelfDraft.catalog) := by
    intro index hle hlt
    interval_cases index <;> rfl
  have hcrate : (materialize ⟨11⟩).run.run (linkBox shelfDraft.catalog) =
      (.ok (), linkCrate (linkBox shelfDraft.catalog)) := by
    have happlications : (linkBox shelfDraft.catalog).applications =
      shelfApplications.insert (⟨0⟩, [⟨5⟩]) ⟨12⟩ := rfl
    exact materialize_crate rfl rfl rfl rfl (by decide) (instantiate_new ⟨2⟩ [⟨6⟩] rfl rfl rfl
      (by decide) (by decide) (by simp [happlications, shelfApplications]) (by decide)
      (by simp [happlications, shelfApplications, Std.HashMap.size_insert, Limits.applications]))
  have hlabeled : (materialize ⟨12⟩).run.run (linkCrate (linkBox shelfDraft.catalog)) =
    (.ok (), linkCrate (linkBox shelfDraft.catalog)) := rfl
  have hbase : (materialize ⟨13⟩).run.run (linkCrate (linkBox shelfDraft.catalog)) =
      (.ok (), shelfLinked) := by
    have happlications : (linkCrate (linkBox shelfDraft.catalog)).applications =
      (shelfApplications.insert (⟨0⟩, [⟨5⟩]) ⟨12⟩).insert (⟨2⟩, [⟨6⟩]) ⟨13⟩ := rfl
    exact materialize_box rfl rfl rfl (by decide) (instantiate_new ⟨0⟩ [⟨6⟩] rfl rfl rfl (by decide)
      (by decide) (by simp [happlications, shelfApplications]) (by decide)
      (by simp [happlications, shelfApplications, Std.HashMap.size_insert, Limits.applications]))
  have hlast : (materialize ⟨14⟩).run.run shelfLinked = (.ok (), shelfLinked) := rfl
  rw [materializeFrom_skip 8 (by decide) fun k _ hk => hbefore k hk,
    materializeFrom_step (by decide) hbox,
    materializeFrom_skip 2 (by decide) fun k hle hk => hmiddle k hle hk,
    materializeFrom_step (by decide) hcrate, materializeFrom_step (by decide) hlabeled,
    materializeFrom_step (by decide) hbase, materializeFrom_step (by decide) hlast,
    materializeFrom, if_neg (by decide)]

theorem materializeFrom_shelfGrown :
    materializeFrom 0 shelfGrown = (.ok (), shelfGrownLinked) := by
  have hbefore : ∀ index < 8, (materialize ⟨index⟩).run.run shelfGrown = (.ok (), shelfGrown) := by
    intro index hlt
    interval_cases index <;> rfl
  have hbox : (materialize ⟨8⟩).run.run shelfGrown = (.ok (), linkBox shelfGrown) := by
    have happlications : shelfGrown.applications =
      shelfApplications.insert (⟨0⟩, [⟨6⟩]) ⟨12⟩ := rfl
    exact materialize_box rfl rfl rfl (by decide) (instantiate_new ⟨0⟩ [⟨5⟩] rfl rfl rfl (by decide)
      (by decide) (by simp [happlications, shelfApplications]) (by decide)
      (by simp [happlications, shelfApplications, Std.HashMap.size_insert, Limits.applications]))
  have hmiddle : ∀ index, 9 ≤ index → index < 11 →
      (materialize ⟨index⟩).run.run (linkBox shelfGrown) = (.ok (), linkBox shelfGrown) := by
    intro index hle hlt
    interval_cases index <;> rfl
  have hcrate : (materialize ⟨11⟩).run.run (linkBox shelfGrown) =
      (.ok (), linkCrate (linkBox shelfGrown)) := by
    have happlications : (linkBox shelfGrown).applications =
      (shelfApplications.insert (⟨0⟩, [⟨6⟩]) ⟨12⟩).insert (⟨0⟩, [⟨5⟩]) ⟨13⟩ := rfl
    exact materialize_crate rfl rfl rfl rfl (by decide) (instantiate_new ⟨2⟩ [⟨6⟩] rfl rfl rfl
      (by decide) (by decide) (by simp [happlications, shelfApplications]) (by decide)
      (by simp [happlications, shelfApplications, Std.HashMap.size_insert, Limits.applications]))
  have hlabeled : ∀ index, 12 ≤ index → index < 14 →
      (materialize ⟨index⟩).run.run (linkCrate (linkBox shelfGrown)) =
        (.ok (), linkCrate (linkBox shelfGrown)) := by
    intro index hle hlt
    interval_cases index <;> rfl
  have hbase : (materialize ⟨14⟩).run.run (linkCrate (linkBox shelfGrown)) =
      (.ok (), shelfGrownLinked) := by
    have happlications : (linkCrate (linkBox shelfGrown)).applications =
      ((shelfApplications.insert (⟨0⟩, [⟨6⟩]) ⟨12⟩).insert (⟨0⟩, [⟨5⟩]) ⟨13⟩).insert
        (⟨2⟩, [⟨6⟩]) ⟨14⟩ := rfl
    exact materialize_box rfl rfl rfl (by decide) (run_instantiate_of_indexed rfl rfl rfl
      (by decide) (by decide) (by simp [happlications, Std.HashMap.getElem_insert]))
  rw [materializeFrom_skip 8 (by decide) fun k _ hk => hbefore k hk,
    materializeFrom_step (by decide) hbox,
    materializeFrom_skip 2 (by decide) fun k hle hk => hmiddle k hle hk,
    materializeFrom_step (by decide) hcrate,
    materializeFrom_skip 2 (by decide) fun k hle hk => hlabeled k hle hk,
    materializeFrom_step (by decide) hbase, materializeFrom, if_neg (by decide)]

/-- The interfaces are listed: `Crate<T>` and `Crate<string>` have got those of their bases. -/
def listShelf (c : Catalog) (labeled labeledString : TypeId) : Catalog :=
  (c.setNode ⟨4⟩ ⟨"Crate", .classType, .definition [⟨5⟩], 0, some ⟨8⟩, [labeled]⟩).setNode ⟨11⟩
    ⟨"Crate", .classType, .application ⟨4⟩ [⟨6⟩], 1, c.base? ⟨11⟩, [labeledString]⟩

/-- The finished shelf. -/
def shelfLibrary : Library :=
  ⟨⟨listShelf shelfLinked ⟨12⟩ ⟨14⟩⟩, shelfDraft.methods, shelfDraft.options⟩

/-- The shelf finished after `Labeled<string>` has been entered. -/
def shelfGrownLibrary : Library :=
  ⟨⟨listShelf shelfGrownLinked ⟨13⟩ ⟨12⟩⟩, shelfDraft.methods, shelfDraft.options⟩

theorem finish_shelf : shelfDraft.finish = .ok shelfLibrary := by
  have hc := (LibraryDraft.loaded ofSchema_shelf).wellFormed
  have hcycle := hc.inheritanceCycle?_eq_none_of_lt (by decide)
  exact LibraryDraft.finish_eq_ok_iff.mpr
    ⟨hc.finish_of_lists hcycle materializeFrom_shelf rfl rfl rfl (by decide), rfl, rfl⟩

/-- Text with one argument too many: the argument on the left is entered all the same. -/
theorem resolve_shelf_error :
    ∃ e, shelfDraft.resolve "Box<Labeled<string>, string>" =
      (.error e, { shelfDraft with catalog := shelfGrown }) := by
  obtain ⟨hlabeled, hbox, -, hstring⟩ := lookupName?_shelf
  have hread : TypeExpr.read "Box<Labeled<string>, string>" =
    .ok (.mk "Box" [.mk "Labeled" [.mk "string" []], .mk "string" []]) := TypeExpr.read_eq_scan _
  have hleft : (Load.resolve [] "Box<Labeled<string>, string>"
      (.mk "Labeled" [.mk "string" []])).run.run shelfDraft.catalog = (.ok ⟨12⟩, shelfGrown) :=
    (Load.run_resolve_application rfl hlabeled rfl
      (Load.run_resolveAll_single (Load.run_resolve_name rfl hstring))).trans
      (Load.run_ofBuild_ok instantiate_shelf)
  have hargs : (Load.resolveAll [] "Box<Labeled<string>, string>"
      [.mk "Labeled" [.mk "string" []], .mk "string" []]).run.run shelfDraft.catalog =
      (.ok [⟨12⟩, ⟨6⟩], shelfGrown) :=
    Load.run_resolveAll_cons hleft
      (Load.run_resolveAll_single (Load.run_resolve_name rfl hstring))
  rw [LibraryDraft.resolve, Load.resolveText, hread]
  simp only [Load.run_resolve_application rfl hbox rfl hargs]
  exact ⟨_, rfl⟩

theorem finish_shelfGrown :
    LibraryDraft.finish { shelfDraft with catalog := shelfGrown } = .ok shelfGrownLibrary := by
  have hc : shelfGrown.WellFormed := by
    obtain ⟨e, herror⟩ := resolve_shelf_error
    have hgrows := LibraryDraft.grows_resolve (LibraryDraft.loaded ofSchema_shelf).wellFormed
      "Box<Labeled<string>, string>"
    rw [herror] at hgrows
    exact hgrows.catalog.wellFormed
  have hcycle := hc.inheritanceCycle?_eq_none_of_lt (by decide)
  exact LibraryDraft.finish_eq_ok_iff.mpr
    ⟨hc.finish_of_lists hcycle materializeFrom_shelfGrown rfl rfl rfl (by decide), rfl, rfl⟩

/-- Looking up the application of a definition with one type parameter to a named type. -/
theorem Hierarchy.resolveText_application {h : Hierarchy} {text head name : String}
    {definition arg id : TypeId} (hread : TypeExpr.read text = .ok (.mk head [.mk name []]))
    (hhead : h.catalog.lookupName? head = some definition)
    (hname : h.catalog.lookupName? name = some arg)
    (hparams : (h.catalog.params definition).length = 1) (hne : h.catalog.params definition ≠ [arg])
    (hentry : h.catalog.applications[(definition, [arg])]? = some id) :
    h.resolveText text = .ok id := by
  have happlication : h.catalog.application? definition [arg] = some id := by
    rw [application?, if_neg (by simpa using hne), hentry]
  rw [resolveText, hread]
  simp [resolve, resolveAll, hhead, hname, hparams, happlication, Except.map]

theorem applications_shelf : shelfLibrary.hierarchy.catalog.applications =
    ((shelfApplications.insert (⟨0⟩, [⟨5⟩]) ⟨12⟩).insert (⟨2⟩, [⟨6⟩]) ⟨13⟩).insert
      (⟨0⟩, [⟨6⟩]) ⟨14⟩ := rfl

theorem resolveText_shelf : shelfLibrary.hierarchy.resolveText "Crate<string>" = .ok ⟨11⟩ := by
  obtain ⟨-, -, hcrate, hstring⟩ := lookupName?_shelf
  obtain ⟨-, -, -, hread, -⟩ := read_shelf
  exact Hierarchy.resolveText_application hread hcrate hstring rfl (by decide)
    (by simp [applications_shelf, Std.HashMap.getElem_insert, shelfApplications])

/-- Reading the label of `Crate<string>`, which is one through its base, gives `string`. -/
theorem answer_shelf :
    shelfLibrary.answer "unlabel" ["Crate<string>"] = .ok [("V", "string")] := by
  have hinfer : shelfLibrary.hierarchy.catalog.infer shelfLibrary.options
      ⟨"unlabel", [⟨9⟩], [⟨10⟩]⟩ [⟨11⟩] = .ok ⟨"unlabel", [(⟨9⟩, ⟨6⟩)]⟩ := by
    have hplaces : shelfLibrary.hierarchy.catalog.parameterOccurrences [⟨10⟩] ⟨9⟩ =
        [⟨0, ⟨⟨10⟩, [0]⟩⟩] := by
      have hlabeled : shelfLibrary.hierarchy.catalog.args ⟨10⟩ = [⟨9⟩] := rfl
      simp [parameterOccurrences, occurrences, pushArguments, hlabeled]
    have hvalues : shelfLibrary.hierarchy.catalog.evaluateAll [⟨11⟩] [⟨0, ⟨⟨10⟩, [0]⟩⟩] =
      .ok [⟨6⟩] := rfl
    simp only [infer, inferEach, inferParameter, hplaces, hvalues, distinct_eq_eraseDups]
    rfl
  have hmethod : shelfLibrary.method? "unlabel" = some ⟨"unlabel", [⟨9⟩], [⟨10⟩]⟩ := by decide
  have hdisplay : shelfLibrary.hierarchy.catalog.display ⟨6⟩ = "string" ∧
      shelfLibrary.hierarchy.catalog.display ⟨9⟩ = "V" := by
    constructor <;> rw [display] <;> rfl
  rw [Library.answer, Library.infer]
  simp only [hmethod, Library.resolveArguments, resolveText_shelf, Except.map, hinfer,
    Except.mapError, displayBindings, List.map_cons, List.map_nil, hdisplay]

/-- With `Labeled<string>` entered by an attempt that fails because of the number of
arguments, the label of `Crate<string>` is still `string`. -/
theorem Library.answer_of_resolved_more_shelf :
    LibraryDraft.ofSchema shelf = .ok shelfDraft ∧
    (∃ e, (shelfDraft.resolve "Box<Labeled<string>, string>").1 = .error e) ∧
    (shelfDraft.resolveEach []).finish = .ok shelfLibrary ∧
    ((shelfDraft.resolveEach []).resolveEach ["Box<Labeled<string>, string>"]).finish =
      .ok shelfGrownLibrary ∧
    shelfLibrary.answer "unlabel" ["Crate<string>"] = .ok [("V", "string")] ∧
    shelfGrownLibrary.answer "unlabel" ["Crate<string>"] = .ok [("V", "string")] := by
  obtain ⟨e, herror⟩ := resolve_shelf_error
  have hfinish' : ((shelfDraft.resolveEach []).resolveEach
      ["Box<Labeled<string>, string>"]).finish = .ok shelfGrownLibrary := by
    rw [LibraryDraft.resolveEach, LibraryDraft.resolveEach, List.foldl_nil, List.foldl_cons, herror]
    exact finish_shelfGrown
  obtain ⟨hanswer, -⟩ := answer_of_resolved_more ofSchema_shelf []
    ["Box<Labeled<string>, string>"] finish_shelf hfinish' "unlabel" ["Crate<string>"]
  exact ⟨ofSchema_shelf, ⟨e, congrArg Prod.fst herror⟩, finish_shelf, hfinish', answer_shelf,
    hanswer _ answer_shelf⟩

end Generics

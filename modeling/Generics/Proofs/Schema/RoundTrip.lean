/-
Generics.Proofs.Schema.RoundTrip — schemas are read back from their documents.

A document may be told in other words than the written one: with the members of its
objects in any order, and without those that have the value a record starts
with. What may be left out is listed here for each kind of record, as the values
that stand in a document. Reading is indifferent to both
(`Schema.document_roundTrip`), and the texts in a schema may be anything.
-/
import Generics.Proofs.Json.RoundTrip
import Generics.Proofs.Schema.Records
import Generics.Schema.Document

namespace Generics

open RecordShape

/-! ## 1. Documents in other words -/

/-- The members of a type declaration that may be left out. -/
def TypeDecl.defaults : List (String × Json) :=
  [("kind", .string "class"), ("params", .list []), ("base", .null), ("interfaces", .list [])]

/-- The members of a method declaration that may be left out. -/
def MethodDecl.defaults : List (String × Json) :=
  [("type_params", .list []), ("params", .list [])]

/-- The options that may be left out. -/
def InferenceOptions.defaults : List (String × Json) :=
  [("reconciliation", .string "exact")]

/-- The members of a document that may be left out. -/
def Schema.defaults : List (String × Json) :=
  [("types", .list []), ("methods", .list []),
    ("options", .record [("reconciliation", .string "exact")])]

/-- The document tells of the schema: it is the written one up to the order of members
and members left out, in the document and in each declaration. -/
def Schema.ToldBy (s : Schema) (document : Json) : Prop :=
  ∃ types methods options,
    List.Forall₂ (fun d j => Json.Rearranges TypeDecl.defaults d.toJson j) s.types types ∧
    List.Forall₂ (fun d j => Json.Rearranges MethodDecl.defaults d.toJson j) s.methods methods ∧
    Json.Rearranges InferenceOptions.defaults s.options.toJson options ∧
    Json.Rearranges Schema.defaults
      (.record [("types", .list types), ("methods", .list methods), ("options", options)]) document

/-! ## 2. Texts and choices -/

theorem decodeStrings_ok (texts : List String) :
    decodeList decodeString (.strings texts) = .ok texts := by
  have hstring : ∀ text, decodeString (.string text) = .ok text := fun _ => rfl
  exact decodeList_map_ok hstring texts

theorem decodeOptionalString_ok (text? : Option String) :
    decodeOptionalString ((text?.map Json.string).getD .null) = .ok text? := by
  cases text? <;> rfl

theorem decodeKind_ok (kind : Kind) :
    decodeVariant Kind.variants (.string kind.name) = .ok kind := by
  cases kind <;> rfl

theorem decodeReconciliation_ok (reconciliation : Reconciliation) :
    decodeVariant Reconciliation.variants (.string reconciliation.name) = .ok reconciliation := by
  cases reconciliation <;> rfl

theorem textual_list {α : Type} {values : List α} {items : List Json}
    (h : List.Forall₂ (fun _ j => Json.Textual j) values items) : Json.Textual (.list items) := by
  refine .list ?_
  induction h with
  | nil => simp
  | cons hj _ ih => exact List.forall_mem_cons.mpr ⟨hj, ih⟩

theorem textual_strings (texts : List String) : Json.Textual (.strings texts) := by
  refine .list fun j hj => ?_
  obtain ⟨text, -, rfl⟩ := List.mem_map.mp hj
  exact .string text

/-- An object in other words has no numbers if the object has none. -/
theorem Json.Rearranges.textual {defaults : List (String × Json)} {j j' : Json}
    (h : Json.Rearranges defaults j j') (hj : Json.Textual j) : Json.Textual j' := by
  obtain ⟨full, told, dropped, rfl, rfl, hperm, -⟩ := h
  cases hj with
  | record hfull => exact .record fun m hm => hfull m (hperm.subset (List.mem_append_left _ hm))

/-! ## 3. Declarations

Each kind of record has a table of its parts, as they are written. Reading what is
written for a part gives a record that part and leaves the others alone. -/

namespace TypeDecl

def parts : List (String × (TypeDecl → Json)) :=
  [("name", fun d => .string d.name), ("kind", fun d => .string d.kind.name),
    ("params", fun d => .strings d.params),
    ("base", fun d => (d.base.map Json.string).getD .null),
    ("interfaces", fun d => .strings d.interfaces)]

theorem writtenBy_parts : shape.WrittenBy parts where
  keys := rfl
  nodup := by decide
  ext := by
    rintro ⟨⟩ ⟨⟩ h
    simp only [parts, List.forall_mem_cons] at h
    obtain ⟨hname, hkind, hparams, hbase, hinterfaces, -⟩ := h
    cases hname
    cases injective_of_decode decodeKind_ok hkind
    cases injective_of_decode decodeStrings_ok hparams
    cases injective_of_decode decodeOptionalString_ok hbase
    cases injective_of_decode decodeStrings_ok hinterfaces
    rfl

theorem enters (d : TypeDecl) : ∀ m ∈ members parts d, shape.Enters parts d m := by
  intro m hm
  simp only [members, parts, List.map_cons, List.map_nil, List.mem_cons, List.not_mem_nil,
    or_false] at hm
  rcases hm with rfl | rfl | rfl | rfl | rfl
  · exact ⟨_, rfl, fun a => ⟨{ a with name := d.name }, rfl, by simp [parts]⟩⟩
  · exact ⟨_, rfl, fun a => ⟨{ a with kind := d.kind }, by simp [decodeKind_ok, Except.map],
      by simp [parts]⟩⟩
  · exact ⟨_, rfl, fun a => ⟨{ a with params := d.params },
      by simp [decodeStrings_ok, Except.map], by simp [parts]⟩⟩
  · exact ⟨_, rfl, fun a => ⟨{ a with base := d.base },
      by simp [decodeOptionalString_ok, Except.map], by simp [parts]⟩⟩
  · exact ⟨_, rfl, fun a => ⟨{ a with interfaces := d.interfaces },
      by simp [decodeStrings_ok, Except.map], by simp [parts]⟩⟩

theorem isDefault_of_mem : ∀ m ∈ defaults, shape.IsDefault m := by
  intro m hm
  simp only [defaults, List.mem_cons, List.not_mem_nil, or_false] at hm
  rcases hm with rfl | rfl | rfl | rfl <;> exact ⟨_, rfl, rfl, rfl⟩

theorem decode_ok {d : TypeDecl} {j : Json} (h : Json.Rearranges defaults d.toJson j) :
    shape.decode j = .ok d :=
  writtenBy_parts.decode_ok rfl d.enters isDefault_of_mem h

theorem textual_toJson (d : TypeDecl) : Json.Textual d.toJson := by
  have hbase : Json.Textual ((d.base.map Json.string).getD .null) := by
    cases d.base with
    | none => exact .null
    | some base => exact .string base
  refine .record ?_
  simp only [List.forall_mem_cons]
  exact ⟨.string _, .string _, textual_strings _, hbase, textual_strings _, by simp⟩

theorem decode_toJson (d : TypeDecl) : shape.decode d.toJson = .ok d :=
  decode_ok (.refl _ _)

end TypeDecl

namespace MethodDecl

def parts : List (String × (MethodDecl → Json)) :=
  [("name", fun d => .string d.name), ("type_params", fun d => .strings d.typeParams),
    ("params", fun d => .strings d.params)]

theorem writtenBy_parts : shape.WrittenBy parts where
  keys := rfl
  nodup := by decide
  ext := by
    rintro ⟨⟩ ⟨⟩ h
    simp only [parts, List.forall_mem_cons] at h
    obtain ⟨hname, htypeParams, hparams, -⟩ := h
    cases hname
    cases injective_of_decode decodeStrings_ok htypeParams
    cases injective_of_decode decodeStrings_ok hparams
    rfl

theorem enters (d : MethodDecl) : ∀ m ∈ members parts d, shape.Enters parts d m := by
  intro m hm
  simp only [members, parts, List.map_cons, List.map_nil, List.mem_cons, List.not_mem_nil,
    or_false] at hm
  rcases hm with rfl | rfl | rfl
  · exact ⟨_, rfl, fun a => ⟨{ a with name := d.name }, rfl, by simp [parts]⟩⟩
  · exact ⟨_, rfl, fun a => ⟨{ a with typeParams := d.typeParams },
      by simp [decodeStrings_ok, Except.map], by simp [parts]⟩⟩
  · exact ⟨_, rfl, fun a => ⟨{ a with params := d.params },
      by simp [decodeStrings_ok, Except.map], by simp [parts]⟩⟩

theorem isDefault_of_mem : ∀ m ∈ defaults, shape.IsDefault m := by
  intro m hm
  simp only [defaults, List.mem_cons, List.not_mem_nil, or_false] at hm
  rcases hm with rfl | rfl <;> exact ⟨_, rfl, rfl, rfl⟩

theorem decode_ok {d : MethodDecl} {j : Json} (h : Json.Rearranges defaults d.toJson j) :
    shape.decode j = .ok d :=
  writtenBy_parts.decode_ok rfl d.enters isDefault_of_mem h

theorem textual_toJson (d : MethodDecl) : Json.Textual d.toJson := by
  refine .record ?_
  simp only [List.forall_mem_cons]
  exact ⟨.string _, textual_strings _, textual_strings _, by simp⟩

theorem decode_toJson (d : MethodDecl) : shape.decode d.toJson = .ok d :=
  decode_ok (.refl _ _)

end MethodDecl

namespace InferenceOptions

def parts : List (String × (InferenceOptions → Json)) :=
  [("reconciliation", fun o => .string o.reconciliation.name)]

theorem writtenBy_parts : shape.WrittenBy parts where
  keys := rfl
  nodup := by decide
  ext := by
    rintro ⟨⟩ ⟨⟩ h
    simp only [parts, List.forall_mem_cons] at h
    cases injective_of_decode decodeReconciliation_ok h.1
    rfl

theorem enters (o : InferenceOptions) : ∀ m ∈ members parts o, shape.Enters parts o m := by
  intro m hm
  simp only [members, parts, List.map_cons, List.map_nil, List.mem_singleton] at hm
  subst hm
  exact ⟨_, rfl, fun a => ⟨o, by simp [decodeReconciliation_ok, Except.map], by simp [parts]⟩⟩

theorem isDefault_of_mem : ∀ m ∈ defaults, shape.IsDefault m := by
  intro m hm
  cases List.mem_singleton.mp hm
  exact ⟨_, rfl, rfl, rfl⟩

theorem decode_ok {o : InferenceOptions} {j : Json} (h : Json.Rearranges defaults o.toJson j) :
    shape.decode j = .ok o :=
  writtenBy_parts.decode_ok rfl o.enters isDefault_of_mem h

theorem textual_toJson (o : InferenceOptions) : Json.Textual o.toJson :=
  .record (by simp only [List.forall_mem_singleton]; exact .string _)

theorem decode_toJson (o : InferenceOptions) : shape.decode o.toJson = .ok o :=
  decode_ok (.refl _ _)

end InferenceOptions

/-! ## 4. Whole documents -/

namespace Schema

/-- The lists and options of a document. The contents of a told document may differ from
these, where its declarations are told in other words. -/
def parts : List (String × (Schema → Json)) :=
  [("types", fun s => .list (s.types.map TypeDecl.toJson)),
    ("methods", fun s => .list (s.methods.map MethodDecl.toJson)),
    ("options", fun s => s.options.toJson)]

theorem writtenBy_parts : shape.WrittenBy parts where
  keys := rfl
  nodup := by decide
  ext := by
    rintro ⟨⟩ ⟨⟩ h
    simp only [parts, List.forall_mem_cons] at h
    obtain ⟨htypes, hmethods, hoptions, -⟩ := h
    cases injective_of_decode (decodeList_map_ok TypeDecl.decode_toJson) htypes
    cases injective_of_decode (decodeList_map_ok MethodDecl.decode_toJson) hmethods
    cases injective_of_decode InferenceOptions.decode_toJson hoptions
    rfl

theorem isDefault_of_mem : ∀ m ∈ defaults, shape.IsDefault m := by
  intro m hm
  simp only [defaults, List.mem_cons, List.not_mem_nil, or_false] at hm
  rcases hm with rfl | rfl | rfl <;> exact ⟨_, rfl, rfl, rfl⟩

theorem decode_ok {s : Schema} {document : Json} (h : s.ToldBy document) :
    shape.decode document = .ok s := by
  obtain ⟨types, methods, options, htypes, hmethods, hoptions, hdocument⟩ := h
  have htypes' := decodeList_ok (htypes.imp fun d j hj => TypeDecl.decode_ok hj)
  have hmethods' := decodeList_ok (hmethods.imp fun d j hj => MethodDecl.decode_ok hj)
  have hoptions' := InferenceOptions.decode_ok hoptions
  refine writtenBy_parts.decode_ok rfl ?_ isDefault_of_mem hdocument
  intro m hm
  simp only [List.mem_cons, List.not_mem_nil, or_false] at hm
  rcases hm with rfl | rfl | rfl
  · exact ⟨_, rfl, fun a => ⟨{ a with types := s.types }, by simp [htypes', Except.map],
      by simp [parts]⟩⟩
  · exact ⟨_, rfl, fun a => ⟨{ a with methods := s.methods }, by simp [hmethods', Except.map],
      by simp [parts]⟩⟩
  · exact ⟨_, rfl, fun a => ⟨{ a with options := s.options }, by simp [hoptions', Except.map],
      by simp [parts]⟩⟩

theorem textual_of_toldBy {s : Schema} {document : Json} (h : s.ToldBy document) :
    Json.Textual document := by
  obtain ⟨types, methods, options, htypes, hmethods, hoptions, hdocument⟩ := h
  refine hdocument.textual (.record ?_)
  have htypes' := textual_list (htypes.imp fun d j hj => hj.textual d.textual_toJson)
  have hmethods' := textual_list (hmethods.imp fun d j hj => hj.textual d.textual_toJson)
  have hoptions' := hoptions.textual s.options.textual_toJson
  simp only [List.forall_mem_cons]
  exact ⟨htypes', hmethods', hoptions', by simp⟩

/-- A written document tells of its schema. -/
theorem toldBy_toJson (s : Schema) : s.ToldBy s.toJson := by
  refine ⟨_, _, s.options.toJson, ?_, ?_, .refl _ _, .refl _ _⟩
  · exact List.forall₂_map_right_iff.mpr (List.forall₂_same.mpr fun _ _ => .refl _ _)
  · exact List.forall₂_map_right_iff.mpr (List.forall₂_same.mpr fun _ _ => .refl _ _)

theorem ofText_of_toldBy {s : Schema} {document : Json} (h : s.ToldBy document) :
    ofText document.write = .ok s := by
  simp [ofText, Json.read_write (textual_of_toldBy h), decode_ok h]

end Schema

/-- Whatever texts a schema holds, it is read back from the document written for it,
and from every document that differs from that one in the order of members and in
members left out that have the value they are taken to have. -/
theorem Schema.document_roundTrip (s : Schema) :
    Schema.ofText s.toText = .ok s ∧
      ∀ document, s.ToldBy document → Schema.ofText document.write = .ok s := by
  exact ⟨ofText_of_toldBy s.toldBy_toJson, fun document h => ofText_of_toldBy h⟩

/-- A generic class whose name has to be escaped, and a class with a base. -/
def labels : Schema where
  types := [{ name := "Box \"\\\x01é", params := ["T"] }, { name := "Cat", base := some "Animal" }]
  options := { reconciliation := .nearestCommonBase }

/-- `labels` in other words. -/
def labelsDocument : Json :=
  .record
    [("options", .record [("reconciliation", .string "nearest_common_base")]),
      ("types", .list
        [.record [("params", .list [.string "T"]), ("name", .string "Box \"\\\x01é")],
          .record [("base", .string "Animal"), ("name", .string "Cat")]])]

/-- The text of that document. -/
def labelsText : String :=
  "\x7b\"options\":\x7b\"reconciliation\":\"nearest_common_base\"\x7d,\"types\":[" ++
    "\x7b\"params\":[\"T\"],\"name\":\"Box \\\"\\\\\\u0001é\"\x7d," ++
    "\x7b\"base\":\"Animal\",\"name\":\"Cat\"\x7d]\x7d"

theorem toldBy_labels : labels.ToldBy labelsDocument := by
  have hbox : Json.Rearranges TypeDecl.defaults
      (TypeDecl.toJson { name := "Box \"\\\x01é", params := ["T"] })
      (.record [("params", .list [.string "T"]), ("name", .string "Box \"\\\x01é")]) :=
    ⟨_, _, [("kind", .string "class"), ("base", .null), ("interfaces", .list [])], rfl, rfl,
      (List.Perm.swap _ _ _).trans (.cons _ (.swap _ _ _)), by simp [TypeDecl.defaults]⟩
  have hcat : Json.Rearranges TypeDecl.defaults
      (TypeDecl.toJson { name := "Cat", base := some "Animal" })
      (.record [("base", .string "Animal"), ("name", .string "Cat")]) :=
    ⟨_, _, [("kind", .string "class"), ("params", .list []), ("interfaces", .list [])], rfl, rfl,
      (List.Perm.swap _ _ _).trans (.cons _ ((List.Perm.swap _ _ _).trans (.cons _ (.swap _ _ _)))),
      by simp [TypeDecl.defaults]⟩
  exact ⟨_, [], _, .cons hbox (.cons hcat .nil), .nil, .refl _ _, _, _, [("methods", .list [])],
    rfl, rfl, (List.Perm.swap _ _ _).trans (.cons _ (.swap _ _ _)), by simp [Schema.defaults]⟩

theorem write_labels : labelsDocument.write = labelsText := by
  unfold labelsText
  simp [Json.write, labelsDocument, Json.writeChars, Json.record, Json.list, Json.writeMembers,
    Json.writeItems, Json.writeString, Json.escapeChar, Json.hexDigit]

/-- The options come first, `Box` has its parameters before its name, and everything that
need not be said is not said. -/
theorem Schema.document_roundTrip_labels :
    labels.ToldBy labelsDocument ∧ Schema.ofText labels.toText = .ok labels ∧
      Schema.ofText labelsText = .ok labels := by
  obtain ⟨hwritten, htold⟩ := Schema.document_roundTrip labels
  rw [← write_labels]
  exact ⟨toldBy_labels, hwritten, htold labelsDocument toldBy_labels⟩

end Generics

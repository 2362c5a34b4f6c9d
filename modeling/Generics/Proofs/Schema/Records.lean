/-
Generics.Proofs.Schema.Records — records are read from their members in any
order.

A record is written as an object by a table of its parts, one for each field of
its shape. Reading goes through the members in the order in which they stand. The
invariant is about the parts: those whose member is still to come may be anything,
and all others are as in the record that the members tell of
(`WrittenBy.decodeMembers_ok`). A member that says what a record holds
before anything is read can therefore be left out.
-/
import Mathlib.Data.List.Forall2
import Mathlib.Data.List.Nodup
import Generics.Schema.Record

namespace Generics

/-! ## 1. Objects in other words -/

/-- `j'` is the object `j` with its members in any order and without some of those
that are among `defaults`. -/
def Json.Rearranges (defaults : List (String × Json)) (j j' : Json) : Prop :=
  ∃ full told dropped, j = .record full ∧ j' = .record told ∧
    (told ++ dropped).Perm full ∧ ∀ m ∈ dropped, m ∈ defaults

theorem Json.Rearranges.refl (defaults full : List (String × Json)) :
    Json.Rearranges defaults (.record full) (.record full) :=
  ⟨full, full, [], rfl, rfl, by simp, by simp⟩

/-! ## 2. Values and lists -/

/-- Values that can be read back are written differently. -/
theorem injective_of_decode {β : Type} {encode : β → Json} {decode : Json → Decoded β}
    (h : ∀ b, decode (encode b) = .ok b) : Function.Injective encode := by
  intro b b' heq
  have hread := h b
  rw [heq, h b'] at hread
  exact (Except.ok.inj hread).symm

section

variable {α : Type} {item : Json → Decoded α} {items : List Json} {values : List α}

theorem decodeItems_ok (h : List.Forall₂ (fun a j => item j = .ok a) values items) :
    decodeItems item items = .ok values := by
  induction h with
  | nil => rfl
  | cons hitem _ ih =>
    simp only [decodeItems, hitem, ih]
    rfl

theorem decodeList_ok (h : List.Forall₂ (fun a j => item j = .ok a) values items) :
    decodeList item (.list items) = .ok values := by
  simp only [Json.list, decodeList, decodeItems_ok h]
  rfl

theorem decodeList_map_ok {encode : α → Json} (h : ∀ a, item (encode a) = .ok a)
    (values : List α) : decodeList item (.list (values.map encode)) = .ok values :=
  decodeList_ok (List.forall₂_map_right_iff.mpr (List.forall₂_same.mpr fun a _ => h a))

end

/-! ## 3. Records -/

namespace RecordShape

variable {α : Type} {shape : RecordShape α} {parts : List (String × (α → Json))} {r : α}

/-- The members of a record that is written part by part. -/
def members (parts : List (String × (α → Json))) (a : α) : List (String × Json) :=
  parts.map fun p => (p.1, p.2 a)

/-- The parts are those of records of this shape, one for each field, and a record
has no others. -/
structure WrittenBy (shape : RecordShape α) (parts : List (String × (α → Json))) : Prop where
  keys : parts.map Prod.fst = shape.fields.map Field.key
  nodup : (shape.fields.map Field.key).Nodup
  ext : ∀ {a b}, (∀ p ∈ parts, p.2 a = p.2 b) → a = b

/-- Reading the member gives any record the part of `r` that it is about, and leaves
the other parts as they are. -/
def Enters (shape : RecordShape α) (parts : List (String × (α → Json))) (r : α)
    (m : String × Json) : Prop :=
  ∃ f, shape.fields.find? (fun f => f.key == m.1) = some f ∧
    ∀ a, ∃ a', f.decode m.2 a = .ok a' ∧ ∀ p ∈ parts, p.2 a' = p.2 (if p.1 = m.1 then r else a)

/-- The member may be left out: it says what a record holds that nothing has been read
into. -/
def IsDefault (shape : RecordShape α) (m : String × Json) : Prop :=
  ∃ f, shape.fields.find? (fun f => f.key == m.1) = some f ∧ f.required = false ∧
    f.decode m.2 shape.initial = .ok shape.initial

/-- A member that may be left out says nothing new. -/
theorem Enters.of_isDefault {m : String × Json} (h : shape.Enters parts r m)
    (hdefault : shape.IsDefault m) {p : String × (α → Json)} (hp : p ∈ parts) (hkey : p.1 = m.1) :
    p.2 shape.initial = p.2 r := by
  obtain ⟨f, hfind, hdecode⟩ := h
  obtain ⟨g, hfind', -, hsame⟩ := hdefault
  cases hfind.symm.trans hfind'
  obtain ⟨a, hread, hparts⟩ := hdecode shape.initial
  cases hsame.symm.trans hread
  rw [hparts p hp, if_pos hkey]

/-- Members are read in turn. Parts whose member is still to come may be anything;
all others are those of `r`. -/
theorem WrittenBy.decodeMembers_ok (h : shape.WrittenBy parts) {told : List (String × Json)}
    {seen : List String} {a : α} (henters : ∀ m ∈ told, shape.Enters parts r m)
    (hnodup : (told.map Prod.fst).Nodup) (hnew : ∀ m ∈ told, m.1 ∉ seen)
    (hheld : ∀ p ∈ parts, p.1 ∉ told.map Prod.fst → p.2 a = p.2 r)
    (hrequired : ∀ f ∈ shape.fields, f.required = true →
      f.key ∈ seen ∨ f.key ∈ told.map Prod.fst) :
    shape.decodeMembers .closed seen a told = .ok r := by
  induction told generalizing seen a with
  | nil =>
    have hnone : (shape.fields.find? fun f => f.required && !seen.contains f.key) = none := by
      refine List.find?_eq_none.mpr fun f hf => ?_
      cases hr : f.required with
      | false => simp
      | true => simpa using hrequired f hf hr
    have hsame : a = r := h.ext fun p hp => hheld p hp (by simp)
    simp only [decodeMembers, hnone, hsame]
  | cons m told ih =>
    obtain ⟨f, hfind, hdecode⟩ := henters m List.mem_cons_self
    obtain ⟨a', hread, hparts⟩ := hdecode a
    rw [List.map_cons, List.nodup_cons] at hnodup
    have hunseen : seen.contains m.1 = false := by simpa using hnew m List.mem_cons_self
    simp only [decodeMembers, hfind, hunseen, Bool.false_eq_true, if_false, hread]
    refine ih (fun m hm => henters m (List.mem_cons_of_mem _ hm)) hnodup.2 ?_ ?_ ?_
    · intro m' hm'
      rw [List.mem_cons, not_or]
      refine ⟨fun heq => hnodup.1 ?_, hnew m' (List.mem_cons_of_mem _ hm')⟩
      rw [← heq]
      exact List.mem_map_of_mem hm'
    · intro p hp hkey
      rw [hparts p hp]
      split
      · rfl
      · rename_i hne
        exact hheld p hp (by simpa [hne] using hkey)
    · intro f hf hr
      rcases hrequired f hf hr with hseen | htold
      · exact .inl (List.mem_cons_of_mem _ hseen)
      · rcases List.mem_cons.mp htold with heq | htold
        · exact .inl (heq ▸ List.mem_cons_self)
        · exact .inr htold

/-- A record is read from its members in any order, and without those that say what
a record holds anyway. -/
theorem WrittenBy.decode_ok (h : shape.WrittenBy parts) {full defaults : List (String × Json)}
    {j : Json} (hkeys : full.map Prod.fst = shape.fields.map Field.key)
    (henters : ∀ m ∈ full, shape.Enters parts r m)
    (hdefaults : ∀ m ∈ defaults, shape.IsDefault m)
    (hj : Json.Rearranges defaults (.record full) j) : shape.decode j = .ok r := by
  obtain ⟨_, told, dropped, hfull, rfl, hperm, hdropped⟩ := hj
  cases hfull
  have hmem : ∀ m, m ∈ told ∨ m ∈ dropped ↔ m ∈ full := fun m => by
    rw [← hperm.mem_iff, List.mem_append]
  have hnodup : (told.map Prod.fst ++ dropped.map Prod.fst).Nodup := by
    rw [← List.map_append, (hperm.map Prod.fst).nodup_iff, hkeys]
    exact h.nodup
  have hleft : ∀ key ∈ shape.fields.map Field.key, key ∉ told.map Prod.fst →
      ∃ m ∈ dropped, m.1 = key := by
    intro key hkey hnot
    rw [← hkeys] at hkey
    obtain ⟨m, hm, rfl⟩ := List.mem_map.mp hkey
    rcases (hmem m).mpr hm with htold | hdrop
    · exact absurd (List.mem_map_of_mem htold) hnot
    · exact ⟨m, hdrop, rfl⟩
  refine h.decodeMembers_ok (fun m hm => henters m ((hmem m).mp (.inl hm)))
    hnodup.of_append_left (by simp) ?_ ?_
  · intro p hp hnot
    obtain ⟨m, hm, heq⟩ := hleft p.1 (h.keys ▸ List.mem_map_of_mem hp) hnot
    exact (henters m ((hmem m).mp (.inr hm))).of_isDefault (hdefaults m (hdropped m hm)) hp heq.symm
  · intro f hf hr
    refine .inr (Classical.byContradiction fun hnot => ?_)
    obtain ⟨m, hm, heq⟩ := hleft f.key (List.mem_map_of_mem hf) hnot
    obtain ⟨g, hfind, hoptional, -⟩ := hdefaults m (hdropped m hm)
    have hkey := List.find?_some hfind
    simp only [beq_iff_eq, heq] at hkey
    have hsame : g = f :=
      List.inj_on_of_nodup_map h.nodup (List.mem_of_find?_eq_some hfind) hf hkey
    rw [hsame, hr] at hoptional
    cases hoptional

end RecordShape

end Generics

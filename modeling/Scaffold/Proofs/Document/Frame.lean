/-
# What stays beside an edit

An edit towards a path changes one entry in each section on the way. The text around the returned
array and the names of the document stay, and so does every section off the way, as it is written
(`Framed`). Frames of edits towards the same path compose (`Framed.trans`), and each edit of a
single literal has one (`Edited.framed`).
-/

import Scaffold.Proofs.Document.Splice

namespace Scaffold
namespace Config

open Script (ArrayLiteral Expression Item Value ExpressionTwin ItemTwin LiteralTwin)

namespace Document

/-- The items of a literal as they are written, without the value of an item with the given key. -/
def outline (document : Document) (l : ArrayLiteral) (key : Text) :
    List (Option Text × Option Text) :=
  l.items.map fun item =>
    (item.key.map (·.written document.source),
      if document.hasKey (.known key) item then none
      else some (item.value.written document.source))

section
variable (document document' : Document)

/-- A section is written as before: in the same style, with the same entries. -/
def SameSection (l l' : ArrayLiteral) : Prop :=
  l'.style = l.style ∧ document'.entriesOf l' = document.entriesOf l

/-- A section has one item with the given key. It is written as before but for the value of that
item, and the item is the last one if there was none. -/
structure OneEntry (key : Text) (l l' : ArrayLiteral) : Prop where
  style_eq : l'.style = l.style
  present : ∃ item', document'.matching l' (.known key) = [item']
  outline_eq : document.matching l (.known key) ≠ [] ∧
      document'.outline l' key = document.outline l key ∨
    document.matching l (.known key) = [] ∧
      ∃ written, document'.outline l' key = document.outline l key ++ [(some written, none)]

/-- The documents differ inside the returned array alone. Each section whose path `kept` holds of
is written as before, and each section that `path` leads through has one entry changed. -/
structure Framed (kept : List Text → Prop) (path : List Text) : Prop where
  names_eq : document'.file.names = document.file.names
  created_eq : document'.created = document.created
  head_eq : document'.source.take document'.file.root.openStop =
    document.source.take document.file.root.openStop
  tail_eq : document'.source.drop document'.file.root.close =
    document.source.drop document.file.root.close
  same : ∀ {q : List Text} {m : ArrayLiteral}, kept q → Leads document document.file.root q m →
    ∃ m', Leads document' document'.file.root q m' ∧ SameSection document document' m m'
  way : ∀ {q : List Text} {key : Text} {m : ArrayLiteral}, q ++ [key] <+: path →
    Leads document document.file.root q m →
    ∃ m', Leads document' document'.file.root q m' ∧ OneEntry document document' key m m'

end

variable {document document' : Document}

/-! ### One section -/

/-- A section is the same as itself. -/
theorem SameSection.refl (l : ArrayLiteral) : SameSection document document l l := ⟨rfl, rfl⟩

/-- Sections that are the same one after the other are the same. -/
theorem SameSection.trans {d₁ d₂ d₃ : Document} {l₁ l₂ l₃ : ArrayLiteral}
    (h : SameSection d₁ d₂ l₁ l₂) (h' : SameSection d₂ d₃ l₂ l₃) : SameSection d₁ d₃ l₁ l₃ :=
  ⟨h'.1.trans h.1, h'.2.trans h.2⟩

/-- A key and its twin are written in the same way. -/
theorem key_written_twin {key key' : Option Expression}
    (h : Option.Rel (ExpressionTwin document.source document'.source) key key') :
    key'.map (·.written document'.source) = key.map (·.written document.source) := by
  cases h with
  | none => rfl
  | some h => rw [Option.map_some, Option.map_some, h.written_eq]

/-- What twins agree on is the same for lists of twins. -/
theorem map_twin {α : Type} {items items' : List Item} {f g : Item → α}
    (h : List.Forall₂ (ItemTwin document.source document'.source) items items')
    (hf : ∀ i i', ItemTwin document.source document'.source i i' → g i' = f i) :
    items'.map g = items.map f := by
  induction h with
  | nil => rfl
  | cons hi _ ih => rw [List.map_cons, List.map_cons, hf _ _ hi, ih]

/-- Items and their twins have the same entries. -/
theorem entriesOf_twin {items items' : List Item}
    (h : List.Forall₂ (ItemTwin document.source document'.source) items items') :
    items'.map (fun item => Entry.mk (item.key.map (·.written document'.source))
        (item.value.written document'.source)) =
      items.map fun item => Entry.mk (item.key.map (·.written document.source))
        (item.value.written document.source) :=
  map_twin h fun i i' hi => by rw [key_written_twin hi.1, hi.2.written_eq]

/-- A literal and its twin are the same section. -/
theorem SameSection.of_twin {l l' : ArrayLiteral}
    (h : LiteralTwin document.source document'.source l l') : SameSection document document' l l' :=
  ⟨h.1, entriesOf_twin h.2⟩

/-- Changes of one entry, one after the other, are a change of one entry. -/
theorem OneEntry.trans {d₁ d₂ d₃ : Document} {key : Text} {l₁ l₂ l₃ : ArrayLiteral}
    (h : OneEntry d₁ d₂ key l₁ l₂) (h' : OneEntry d₂ d₃ key l₂ l₃) : OneEntry d₁ d₃ key l₁ l₃ := by
  have houtline : d₃.outline l₃ key = d₂.outline l₂ key := by
    obtain ⟨item, hitem⟩ := h.present
    rcases h'.outline_eq with ⟨-, ho⟩ | ⟨hnil, -⟩
    · exact ho
    · rw [hitem] at hnil
      cases hnil
  refine ⟨h'.style_eq.trans h.style_eq, h'.present, ?_⟩
  rw [houtline]
  exact h.outline_eq

section
variable (hn : document'.file.names = document.file.names)
include hn

/-- Items and their twins have the same outline. -/
theorem outline_twin (key : Text) {items items' : List Item}
    (h : List.Forall₂ (ItemTwin document.source document'.source) items items') :
    items'.map (fun item => (item.key.map (·.written document'.source),
        if document'.hasKey (.known key) item then none
        else some (item.value.written document'.source))) =
      items.map fun item => (item.key.map (·.written document.source),
        if document.hasKey (.known key) item then none
        else some (item.value.written document.source)) :=
  map_twin h fun i i' hi => by rw [key_written_twin hi.1, hi.2.written_eq, hasKey_twin hn hi.1]

/-- An appended item is the one item with its key. -/
theorem Appended.matching {key : Text} {l l' : ArrayLiteral} {item' : Item}
    (h : Appended document document' key l l' item') :
    document'.matching l' (.known key) = [item'] := by
  obtain ⟨before', hl', hb⟩ := h.items_eq
  have hnone := filter_twin hn (.known key) hb
  rw [← matching_eq, h.missing, List.forall₂_nil_left_iff] at hnone
  rw [matching_eq, hl', List.filter_append, hnone, List.filter_cons_of_pos h.hasKey]
  rfl

/-- Replacing a value changes one entry. -/
theorem Replaced.oneEntry {key : Text} {l l' : ArrayLiteral} {item item' : Item}
    (h : Replaced document document' key l l' item item') :
    OneEntry document document' key l l' := by
  refine ⟨h.style_eq, ⟨item', h.matching hn⟩, Or.inl ⟨by simp [h.unique], ?_⟩⟩
  have hitem := hasKey_of_matching h.unique
  have hitem' := hasKey_of_matching (h.matching hn)
  obtain ⟨before, after, before', after', hl, hl', hb, ha⟩ := h.items_eq
  unfold outline
  rw [hl, hl', List.map_append, List.map_append, List.map_cons, List.map_cons,
    outline_twin hn key hb, outline_twin hn key ha, hitem, hitem', key_written_twin h.key_twin]
  rfl

/-- Appending an item changes one entry. -/
theorem Appended.oneEntry {key : Text} {l l' : ArrayLiteral} {item' : Item}
    (h : Appended document document' key l l' item') : OneEntry document document' key l l' := by
  refine ⟨h.style_eq, ⟨item', h.matching hn⟩, Or.inr ⟨h.missing, ?_⟩⟩
  obtain ⟨before', hl', hb⟩ := h.items_eq
  obtain ⟨e, he, -⟩ := hasKey_iff.1 h.hasKey
  refine ⟨e.written document'.source, ?_⟩
  unfold outline
  rw [hl', List.map_append, outline_twin hn key hb, List.map_singleton, h.hasKey, he]
  rfl

/-- Replacing a value or appending an item changes one entry. -/
theorem Altered.oneEntry {key : Text} {l l' : ArrayLiteral}
    (h : Altered document document' key l l') : OneEntry document document' key l l' := by
  rcases h with ⟨item, item', h⟩ | ⟨item', h⟩
  · exact h.oneEntry hn
  · exact h.oneEntry hn

end

/-! ### A whole document -/

variable {kept kept' : List Text → Prop} {path path' : List Text}

/-- A document frames itself. -/
theorem Framed.refl (h : ∀ {q key m}, q ++ [key] <+: path →
      Leads document document.file.root q m → ∃ item, document.matching m (.known key) = [item]) :
    Framed document document kept path where
  names_eq := rfl
  created_eq := rfl
  head_eq := rfl
  tail_eq := rfl
  same _ hm := ⟨_, hm, .refl _⟩
  way hq hm := by
    obtain ⟨item, hitem⟩ := h hq hm
    exact ⟨_, hm, rfl, ⟨item, hitem⟩, Or.inl ⟨by simp [hitem], rfl⟩⟩

/-- Frames follow one after the other. -/
theorem Framed.trans {d₁ d₂ d₃ : Document} (h : Framed d₁ d₂ kept path)
    (h' : Framed d₂ d₃ kept path) : Framed d₁ d₃ kept path where
  names_eq := h'.names_eq.trans h.names_eq
  created_eq := h'.created_eq.trans h.created_eq
  head_eq := h'.head_eq.trans h.head_eq
  tail_eq := h'.tail_eq.trans h.tail_eq
  same hq hm := by
    obtain ⟨m₂, hm₂, hsame⟩ := h.same hq hm
    obtain ⟨m₃, hm₃, hsame'⟩ := h'.same hq hm₂
    exact ⟨m₃, hm₃, hsame.trans hsame'⟩
  way hq hm := by
    obtain ⟨m₂, hm₂, hone⟩ := h.way hq hm
    obtain ⟨m₃, hm₃, hone'⟩ := h'.way hq hm₂
    exact ⟨m₃, hm₃, hone.trans hone'⟩

/-- A frame for more, or along a longer path, is a frame for less. -/
theorem Framed.mono (h : Framed document document' kept path)
    (hkept : ∀ q, kept' q → kept q) (hpath : path' <+: path) :
    Framed document document' kept' path' :=
  { h with
    same := fun hq hm => h.same (hkept _ hq) hm
    way := fun hq hm => h.way (hq.trans hpath) hm }

/-- **The frame of one edit.** -/
theorem Edited.framed {keys : List Text} {m m' : ArrayLiteral}
    (h : Edited document document' keys m m') {key : Text}
    (halt : Altered document document' key m m') :
    Framed document document' (fun q => ¬q <+: keys ∧ ¬keys ++ [key] <+: q) (keys ++ [key]) := by
  have he : ∀ l l', l = m ∧ l' = m' → Altered document document' key l l' := by
    rintro l l' ⟨rfl, rfl⟩
    exact halt
  refine ⟨h.names_eq, h.created_eq, h.head_eq, h.tail_eq, fun {q n} hq hn => ?_,
    fun {q s n} hq hn => ?_⟩
  · obtain ⟨n', hn', htwin⟩ := h.touched.twin h.names_eq he hq.1 hq.2 hn
    exact ⟨n', hn', .of_twin htwin⟩
  · obtain ⟨rest, hrest⟩ := hq
    rw [List.append_assoc, List.singleton_append] at hrest
    obtain ⟨n', hn', hone⟩ := h.touched.altered h.names_eq he hrest.symm hn
    exact ⟨n', hn', hone.oneEntry h.names_eq⟩

end Document
end Config
end Scaffold

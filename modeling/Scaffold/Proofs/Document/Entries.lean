/-
# Setting an entry

An entry is set in the section at a path, which is created where it is missing. If that succeeds,
the section binds the key to the value and to nothing else, and the change says how the entries of
the section became what they are (`setEntry_binds`).
-/

import Scaffold.Proofs.Document.Ensure
import Scaffold.Proofs.Document.Reachable
import Scaffold.Proofs.Document.Setting

namespace Scaffold
namespace Config

open Script (ArrayLiteral Expression Item Value)

namespace Document

/-- An item of the section at the path binds the key to the value. -/
def Binds (document : Document) (path : SectionPath) (key : Text) (value : Value) : Prop :=
  ∃ place, document.sectionAt path = .ok place ∧ ∃ item ∈ place.literal.items,
    document.hasKey (.known key) item = true ∧ document.evaluate item.value = value

/-- The entries of the section at a path; none if there is no such section. -/
def entriesAt (document : Document) (path : SectionPath) : List Entry :=
  match document.sectionAt path with
  | .ok place => document.entriesOf place.literal
  | .error _ => []

/-- The entries of a literal with another text for the value of a key. -/
def rebound (document : Document) (l : ArrayLiteral) (key : Text) (text : Text) : List Entry :=
  l.items.map fun item =>
    { key := item.key.map (·.written document.source)
      value := if document.hasKey (.known key) item then text
        else item.value.written document.source }

variable {document document' : Document} {path : SectionPath} {key value : Literal}
  {change : Change}

/-! ### What is set where -/

/-- A section is looked up where its path leads. -/
theorem sectionAt_of_leads {m : ArrayLiteral}
    (h : Leads document document.file.root path.keys m) :
    document.sectionAt path = .ok ⟨path, m⟩ := sectionAt_eq_ok_iff.2 ⟨rfl, h⟩

/-- The entries at a path are those of the literal that it leads to. -/
theorem entriesAt_of_leads {m : ArrayLiteral}
    (h : Leads document document.file.root path.keys m) :
    document.entriesAt path = document.entriesOf m := by
  rw [entriesAt, sectionAt_of_leads h]

/-- Where a path leads nowhere, there are no entries. -/
theorem entriesAt_of_not_leads (h : ∀ m, ¬Leads document document.file.root path.keys m) :
    document.entriesAt path = [] := by
  unfold entriesAt
  split
  · rename_i place hplace
    exact absurd (sectionAt_eq_ok_iff.1 hplace).2 (h _)
  · rfl

/-- A path binds a key to a value just in case an item of its section does. -/
theorem binds_iff_mem {m : ArrayLiteral} (h : Leads document document.file.root path.keys m)
    {k : Text} {v : Value} :
    document.Binds path k v ↔
      ∃ item ∈ document.matching m (.known k), document.evaluate item.value = v := by
  rw [Binds, sectionAt_of_leads h]
  simp only [Except.ok.injEq, exists_eq_left', matching_eq, List.mem_filter, and_assoc]

/-- Where one item has a key, the key is bound to the value of that item alone. -/
theorem binds_iff_of_matching {m : ArrayLiteral} {item : Item} {k : Text} {v : Value}
    (h : Leads document document.file.root path.keys m)
    (hitem : document.matching m (.known k) = [item]) :
    document.Binds path k v ↔ document.evaluate item.value = v := by
  rw [binds_iff_mem h, hitem]
  simp only [List.mem_singleton, exists_eq_left]

/-- A key without an item is bound to nothing. -/
theorem not_binds_of_missing {m : ArrayLiteral} {k : Text}
    (h : Leads document document.file.root path.keys m)
    (hmissing : document.matching m (.known k) = []) (v : Value) : ¬document.Binds path k v := by
  rw [binds_iff_mem h, hmissing]
  rintro ⟨item, hitem, -⟩
  exact List.not_mem_nil hitem

/-- Where a path leads nowhere, no key is bound. -/
theorem not_binds_of_not_leads (h : ∀ m, ¬Leads document document.file.root path.keys m)
    (k : Text) (v : Value) : ¬document.Binds path k v := by
  rintro ⟨place, hplace, -⟩
  exact h _ (sectionAt_eq_ok_iff.1 hplace).2

/-- An appended item adds its entry behind the others. -/
theorem Appended.entriesOf_eq {k : Text} {l l' : ArrayLiteral} {item' : Item}
    (h : Appended document document' k l l' item') :
    document'.entriesOf l' = document.entriesOf l ++
      [⟨item'.key.map (·.written document'.source), item'.value.written document'.source⟩] := by
  obtain ⟨before', hl', hb⟩ := h.items_eq
  rw [entriesOf, hl', List.map_append, entriesOf_twin hb, entriesOf, List.map_singleton]

/-- A replaced value changes the entry of its key and no other. -/
theorem Replaced.entriesOf_eq {k : Text} {l l' : ArrayLiteral} {item item' : Item}
    (h : Replaced document document' k l l' item item') :
    document'.entriesOf l' = document.rebound l k (item'.value.written document'.source) := by
  obtain ⟨before, after, before', after', hl, hl', hb, ha⟩ := h.items_eq
  obtain ⟨hbnone, hanone⟩ := others_of_matching h.unique hl
  have hother : ∀ items : List Item, items.filter (document.hasKey (.known k)) = [] →
      items.map (fun item => Entry.mk (item.key.map (·.written document.source))
        (item.value.written document.source)) =
      items.map fun item => Entry.mk (item.key.map (·.written document.source))
        (if document.hasKey (.known k) item then item'.value.written document'.source
          else item.value.written document.source) := by
    intro items hnone
    refine List.map_congr_left fun i hi => ?_
    rw [if_neg (List.filter_eq_nil_iff.1 hnone i hi)]
  rw [entriesOf, rebound, hl, hl', List.map_append, List.map_append, List.map_cons, List.map_cons,
    entriesOf_twin hb, entriesOf_twin ha, hother _ hbnone, hother _ hanone,
    if_pos (hasKey_of_matching h.unique), key_written_twin h.key_twin]

/-! ### Setting an entry -/

/-- An edit that succeeds has found or created its section, in which the keys are distinct, and has
set the entry there. -/
theorem setEntry_setAs (hread : document.IsRead) (hk : key.WellFormed) (hv : value.WellFormed)
    (hvr : ¬value.IsRelative) (h : document.setEntry path key value = (document', .ok change)) :
    ∃ document₁ m, Ensured document document₁ path.keys m ∧ (document₁.keyValues m).Nodup ∧
      SetAs document₁ path.keys m key value document' change := by
  have hwalk : ∀ e, document.locate path ≠ .error e := by
    intro e he
    rw [setEntry, ensure_of_error he] at h
    cases h
  obtain ⟨document₁, m, hensure, hensured⟩ := exists_ensured hread hwalk
  rw [setEntry, hensure] at h
  obtain ⟨hnodup, hset⟩ := setAs_of_setIn hensured.isRead hensured.leads hk hv hvr h
  exact ⟨document₁, m, hensured, hnodup, hset⟩

/-- Setting an entry ensures the section and then sets the one item. -/
theorem setEntry_cases (hread : document.IsRead) (hk : key.Representable)
    (hv : value.Representable) (h : document.setEntry path key value = (document', .ok change)) :
    ∃ document₁ m, Ensured document document₁ path.keys m ∧ (document₁.keyValues m).Nodup ∧
      SetAs document₁ path.keys m key value document' change :=
  setEntry_setAs hread hk.wellFormed hv.wellFormed hv.not_isRelative h

/-- An entry can be there only if its section was. -/
theorem Ensured.eq_of_setAs {document₁ : Document} {keys : List Text} {m : ArrayLiteral}
    (h : Ensured document document₁ keys m)
    (hset : SetAs document₁ keys m key value document' change) (hchange : change ≠ .inserted) :
    document₁ = document := by
  rcases h.found_or_created with hsame | ⟨hempty, -⟩
  · exact hsame
  · have hnil : document₁.matching m (.known key.evaluated) = [] := matching_of_empty hempty _
    cases hset with
    | unchanged unique =>
      rw [hnil] at unique
      cases unique
    | replaced _ replaced =>
      have hunique := replaced.unique
      rw [hnil] at hunique
      cases hunique
    | inserted => exact absurd rfl hchange

/-- **What setting an entry does.** Afterwards the section is there, its keys are distinct, and one
item binds the key to the value. The change tells what was there before: the same value, and the
document has not changed; another value, and its text is all that has changed in the entries; or no
item with the key, and the entry comes after the others. -/
theorem setEntry_binds (hd : document.Reachable) (hk : key.Representable)
    (hv : value.Representable) (h : document.setEntry path key value = (document', .ok change)) :
    (∃ place, document'.sectionAt path = .ok place ∧
      (document'.keyValues place.literal).Nodup ∧
      ∃ item, document'.matching place.literal (.known key.evaluated) = [item] ∧
        document'.evaluate item.value = .known value.evaluated) ∧
    (change = .unchanged ↔ document.Binds path key.evaluated (.known value.evaluated)) ∧
    (change = .replaced ↔
      ∃ old, old ≠ .known value.evaluated ∧ document.Binds path key.evaluated old) ∧
    (change = .inserted ↔ ∀ old, ¬document.Binds path key.evaluated old) ∧
    (change = .unchanged → document' = document) ∧
    (change = .replaced → ∃ place, document.sectionAt path = .ok place ∧
      document'.entriesAt path =
        document.rebound place.literal key.evaluated (document.written value)) ∧
    (change = .inserted → document'.entriesAt path = document.entriesAt path ++
      [⟨some (document.written key), document.written value⟩]) := by
  obtain ⟨document₁, m, hensured, hnodup, hset⟩ := setEntry_cases hd.isRead hk hv h
  have hm := hensured.leads
  obtain ⟨m', hm', hnodup', item', hitem', hvalue'⟩ := hset.exists_binding hm hnodup
  refine ⟨⟨⟨path, m'⟩, sectionAt_of_leads hm', hnodup', item', hitem', hvalue'⟩, ?_⟩
  have hfound := hensured.eq_of_setAs hset
  cases hset with
  | @unchanged item unique value_eq =>
    obtain rfl := hfound nofun
    have hbinds := fun v => binds_iff_of_matching (v := v) hm unique
    refine ⟨iff_of_true rfl ((hbinds _).2 value_eq), iff_of_false nofun ?_, iff_of_false nofun ?_,
      fun _ => rfl, nofun, nofun⟩
    · rintro ⟨old, hne, hold⟩
      exact hne ((hbinds old).1 hold ▸ value_eq)
    · exact fun hnone => hnone _ ((hbinds _).2 value_eq)
  | @replaced _ m₂ item item₂ edited replaced value_ne value_written value_eq =>
    obtain rfl := hfound nofun
    have hbinds := fun v => binds_iff_of_matching (v := v) hm replaced.unique
    have hentries := replaced.entriesOf_eq
    rw [value_written, ← entriesAt_of_leads (edited.leads hm)] at hentries
    refine ⟨iff_of_false nofun fun hsame => value_ne ((hbinds _).1 hsame),
      iff_of_true rfl ⟨_, value_ne, (hbinds _).2 rfl⟩,
      iff_of_false nofun fun hnone => hnone _ ((hbinds _).2 rfl), nofun,
      fun _ => ⟨⟨path, m⟩, sectionAt_of_leads hm, hentries⟩, nofun⟩
  | @inserted _ m₂ e item₂ edited appended key_eq key_written value_written value_eq =>
    have hnone : ∀ old, ¬document.Binds path key.evaluated old := by
      rcases hensured.found_or_created with rfl | ⟨-, hmissing⟩
      · exact not_binds_of_missing hm appended.missing
      · exact not_binds_of_not_leads hmissing _
    have hold : document.entriesAt path = document₁.entriesOf m := by
      rcases hensured.found_or_created with rfl | ⟨hempty, hmissing⟩
      · exact entriesAt_of_leads hm
      · rw [entriesAt_of_not_leads hmissing, entriesOf, hempty, List.map_nil]
    have hentries := appended.entriesOf_eq
    rw [key_eq, Option.map_some, key_written, value_written, ← hold,
      ← entriesAt_of_leads (edited.leads hm)] at hentries
    refine ⟨iff_of_false nofun (hnone _), iff_of_false nofun fun ⟨old, _, hold⟩ => hnone old hold,
      iff_of_true rfl hnone, nofun, nofun, fun _ => ?_⟩
    rw [hentries, written, written, written, written, hensured.framed.names_eq]

/-- A class is bound in a section that is created for it. -/
theorem setEntry_binds_created :
    let document := ofText "<?php\nuse App\\Foo;\nreturn ['a' => 1];\n".toList
    ∃ document',
      document.setEntry ⟨["b".toList]⟩ (.string "k".toList) (.classRef "App\\Foo".toList) =
        (document', .ok .inserted) ∧
      document'.entriesAt ⟨["b".toList]⟩ = document.entriesAt ⟨["b".toList]⟩ ++
        [⟨some "'k'".toList, "App\\Foo::class".toList⟩] := by
  intro document
  have hname : ClassName.parse "App\\Foo".toList = .ok ⟨"App\\Foo".toList⟩ :=
    Script.eq_ok_of_toOption (by decide +kernel)
  have hset : document.setEntry ⟨["b".toList]⟩ (.string "k".toList)
      (.classRef "App\\Foo".toList) = (_, .ok .inserted) :=
    Prod.ext rfl (Script.eq_ok_of_toOption (by decide +kernel))
  obtain ⟨-, -, -, -, -, -, hentries⟩ := setEntry_binds (ofText_reachable _)
    (show Literal.Representable (.string "k".toList) from trivial)
    (show Literal.Representable (.classRef "App\\Foo".toList) from
      ⟨⟨_, hname⟩, by decide +kernel⟩) hset
  have hkey : document.written (.string "k".toList) = "'k'".toList := by decide +kernel
  have hvalue : document.written (.classRef "App\\Foo".toList) = "App\\Foo::class".toList := by
    decide +kernel
  refine ⟨_, hset, ?_⟩
  rw [← hkey, ← hvalue]
  exact hentries rfl

end Document
end Config
end Scaffold

/-
# What creating a section creates

A path can be walked to its section, or to a key that is missing, or it is blocked. Finding the
section with the creation of what is missing gives back the section in the first case, creates one
section for each key from the missing one on in the second, and fails in the third, where the
document stays as it was (`ensureSection_creates`). Each created section has one entry, for the
next key, and the last one has none.
-/

import Scaffold.Proofs.Document.Confined
import Scaffold.Proofs.Document.Blocked

namespace Scaffold
namespace Config

open Script (ArrayLiteral ArrayStyle Item)

namespace Document

/-- The second document is the first one with the sections created that are missing on the path
from the key at `depth` on: the section before gets one entry, and so does each new section but the
last, which is empty. -/
structure Creates (document document' : Document) (path : SectionPath) (depth : Nat) : Prop where
  parent : ∀ h : depth < path.keys.length, ∃ place place' text,
    document.sectionAt (path.take depth) = .ok place ∧
    document'.sectionAt (path.take depth) = .ok place' ∧
    place'.literal.style = place.literal.style ∧
    document'.entriesOf place'.literal = document.entriesOf place.literal ++
      [⟨some (document.written (.string path.keys[depth])), text⟩]
  between : ∀ i (h : i < path.keys.length), depth < i → ∃ place text,
    document'.sectionAt (path.take i) = .ok place ∧ place.literal.style = document.style ∧
    document'.entriesOf place.literal =
      [⟨some (document.written (.string path.keys[i])), text⟩]
  last : ∃ place, document'.sectionAt path = .ok place ∧ place.literal.style = document.style ∧
    document'.entriesOf place.literal = []
  beside : Confined document document' path fun _ => False

variable {document document' : Document} {path : SectionPath}

/-! ### Entries without the value of a key -/

/-- The entry that an outline shows of an item with another key. -/
def shownEntry (shown : Option Text × Option Text) : Entry := ⟨shown.1, shown.2.getD []⟩

/-- An outline shows the items with other keys as they are written. -/
theorem entries_eq_map_shownEntry {key : Text} {items : List Item}
    (h : items.filter (document.hasKey (.known key)) = []) :
    items.map (fun item => Entry.mk (item.key.map (·.written document.source))
        (item.value.written document.source)) =
      (items.map fun item => (item.key.map (·.written document.source),
        if document.hasKey (.known key) item then none
        else some (item.value.written document.source))).map shownEntry := by
  rw [List.map_map]
  refine List.map_congr_left fun item hitem => ?_
  rw [Function.comp_apply, if_neg (List.filter_eq_nil_iff.1 h item hitem)]
  rfl

/-- Where an outline hides its last value alone, the entries are those that it shows and one
more. -/
theorem entriesOf_of_outline {l : ArrayLiteral} {key : Text} {written : Option Text}
    {shown : List (Option Text × Option Text)} (hshown : ∀ s ∈ shown, s.2.isSome)
    (h : document.outline l key = shown ++ [(written, none)]) :
    ∃ text, document.entriesOf l = shown.map shownEntry ++ [⟨written, text⟩] := by
  obtain ⟨before, rest, hitems, hbefore, hrest⟩ := List.map_eq_append_iff.1 h
  obtain ⟨item, rfl, hitem⟩ := List.map_eq_singleton_iff.1 hrest
  have hother : before.filter (document.hasKey (.known key)) = [] := by
    refine List.filter_eq_nil_iff.2 fun other hmem hkey => ?_
    have hsome := hshown _ (hbefore ▸ List.mem_map_of_mem hmem)
    rw [if_pos hkey] at hsome
    cases hsome
  refine ⟨item.value.written document.source, ?_⟩
  rw [entriesOf, hitems, List.map_append, entries_eq_map_shownEntry hother, hbefore,
    List.map_singleton, (Prod.mk.inj hitem).1]

/-- A literal that has been extended has one entry more. -/
theorem Extended.entriesOf_eq {key : Text} {l l' : ArrayLiteral}
    (h : Extended document document' key l l')
    (hmissing : document.matching l (.known key) = []) : ∃ text,
    document'.entriesOf l' =
      document.entriesOf l ++ [⟨some (document.written (.string key)), text⟩] := by
  have hshown : ∀ s ∈ document.outline l key, s.2.isSome := by
    intro s hs
    obtain ⟨item, hitem, rfl⟩ := List.mem_map.1 hs
    rw [matching_eq] at hmissing
    rw [if_neg (List.filter_eq_nil_iff.1 hmissing item hitem)]
    rfl
  obtain ⟨text, hentries⟩ := entriesOf_of_outline hshown h.2
  refine ⟨text, ?_⟩
  rw [hentries, entriesOf, entries_eq_map_shownEntry (matching_eq l _ ▸ hmissing)]
  rfl

/-! ### The created sections -/

/-- The keys of a chain lead to its literals, each with the next key in its only entry. -/
theorem Chained.exists_leads {style : ArrayStyle} {l m : ArrayLiteral} {keys : List Text}
    (h : Chained document style l keys m) {i : Nat} (hi : i < keys.length) :
    ∃ n text, Leads document l (keys.take i) n ∧ n.style = style ∧
      document.entriesOf n = [⟨some (document.written (.string keys[i])), text⟩] := by
  induction h generalizing i with
  | last => exact absurd hi (Nat.not_lt_zero _)
  | @next l n m key keys style_eq only leads _ ih =>
    cases i with
    | zero =>
      obtain ⟨text, hentries⟩ := entriesOf_of_outline (List.forall_mem_nil _) only
      exact ⟨l, text, .here l, style_eq, hentries⟩
    | succ i =>
      obtain ⟨o, text, ho, hstyle, hentries⟩ := ih (Nat.lt_of_succ_lt_succ hi)
      exact ⟨o, text, leads.append ho, hstyle, hentries⟩

/-- A chain of new literals ends in the style that it starts with. -/
theorem Chained.style_eq {style : ArrayStyle} {l m : ArrayLiteral} {keys : List Text}
    (h : Chained document style l keys m) : m.style = style := by
  induction h with
  | last style_eq => exact style_eq
  | next _ _ _ _ ih => exact ih

/-- A created section is created where the walk along its path ends. -/
theorem Created.creates {shared deeper : List Text} {key : Text} {parent m : ArrayLiteral}
    (h : Created document document' shared key deeper parent m)
    (hkeys : path.keys = shared ++ key :: deeper)
    (hparent : Leads document document.file.root shared parent)
    (hmissing : document.matching parent (.known key) = []) :
    Creates document document' path shared.length := by
  obtain ⟨keys⟩ := path
  obtain rfl : keys = shared ++ key :: deeper := hkeys
  have hframed := h.framed
  have hwritten : ∀ literal, document'.written literal = document.written literal := fun literal =>
    congrArg (literal.toSource ·) hframed.names_eq
  obtain ⟨parent', n, hparent', hextended, hn, hchained⟩ := h.extended
  have htake : (shared ++ key :: deeper).take shared.length = shared := List.take_left
  refine ⟨fun _ => ?_, fun i hi hdepth => ?_, ?_, ?_⟩
  · obtain ⟨text, hentries⟩ := hextended.entriesOf_eq hmissing
    refine ⟨⟨⟨shared⟩, parent⟩, ⟨⟨shared⟩, parent'⟩, text, ?_, ?_, hextended.1, ?_⟩
    · rw [SectionPath.take, htake]
      exact sectionAt_of_leads hparent
    · rw [SectionPath.take, htake]
      exact sectionAt_of_leads hparent'
    · rw [hentries, List.getElem_append_right (Nat.le_refl _)]
      simp only [Nat.sub_self, List.getElem_cons_zero]
  · obtain ⟨j, rfl⟩ : ∃ j, i = shared.length + (j + 1) := ⟨i - shared.length - 1, by omega⟩
    have hj : j < deeper.length := by
      rw [List.length_append, List.length_cons] at hi
      omega
    obtain ⟨o, text, ho, hstyle, hentries⟩ := hchained.exists_leads hj
    have htake' : (shared ++ key :: deeper).take (shared.length + (j + 1)) =
        shared ++ ([key] ++ deeper.take j) := by
      rw [List.take_length_add_append]
      rfl
    refine ⟨⟨⟨shared ++ ([key] ++ deeper.take j)⟩, o⟩, text, ?_, hstyle, ?_⟩
    · rw [SectionPath.take, htake']
      exact sectionAt_of_leads (hparent'.append (hn.append ho))
    · rw [hentries, hwritten, List.getElem_append_right (Nat.le_add_right _ _)]
      simp only [Nat.add_sub_cancel_left, List.getElem_cons_succ]
  · refine ⟨⟨⟨shared ++ key :: deeper⟩, m⟩, sectionAt_of_leads h.leads, hchained.style_eq, ?_⟩
    rw [entriesOf, hchained.items_eq_nil, List.map_nil]
  · exact (hframed.mono (fun _ hq => hq.1) (List.prefix_refl _)).confined

/-! ### The section that is given back -/

/-- A walk fails for another reason than a missing section. -/
theorem ne_sectionNotFound_of_locate {e : DocumentError} (h : document.locate path = .error e)
    (q : SectionPath) : e ≠ .sectionNotFound q :=
  (Blocked.error_ne (blocked_iff.2 (Or.inl h))).1 q

/-- A section that is there is ensured without a change. -/
theorem ensureSection_of_leads {m : ArrayLiteral}
    (h : Leads document document.file.root path.keys m) :
    document.ensureSection path = (document, .ok ⟨path, m⟩) := by
  rw [ensureSection, ensure_of_leads h]
  rfl

/-- Ensuring a section fails where looking it up fails for another reason than that it is missing,
and then nothing changes. -/
theorem ensureSection_eq_error_iff (hread : document.IsRead) {e : DocumentError} :
    document.ensureSection path = (document', .error e) ↔ document' = document ∧
      document.sectionAt path = .error e ∧ ∀ q, e ≠ .sectionNotFound q := by
  cases hlocate : document.locate path with
  | error found =>
    have hne := ne_sectionNotFound_of_locate hlocate
    rw [ensureSection, ensure_of_error hlocate, sectionAt, hlocate]
    simp only [Except.map, Prod.mk.injEq, Except.error.injEq]
    constructor
    · rintro ⟨rfl, rfl⟩
      exact ⟨rfl, rfl, hne⟩
    · rintro ⟨rfl, rfl, -⟩
      exact ⟨rfl, rfl⟩
  | ok located =>
    have hwalk : ∀ e, document.locate path ≠ .error e := fun e he => by
      rw [hlocate] at he
      cases he
    obtain ⟨document₁, m, hensure, -⟩ := exists_ensured hread hwalk
    rw [ensureSection, hensure, sectionAt, hlocate]
    refine iff_of_false (by simp [Except.map]) ?_
    rintro ⟨-, he, hne⟩
    cases located with
    | found => cases he
    | missing => exact hne _ (Except.error.inj he).symm

/-- **Creating a section creates what is missing of it and nothing else.** It fails just in case the
path is blocked, and then nothing has changed. A section that is there is given back. Where the key
at `depth` is the first that is missing, the rounds are as many as the keys from there on, and each
creates one section, the last one empty. In the new document the path leads to the section that is
given back, and finding it once more changes nothing. That a section could not be created is never
reported. -/
theorem ensureSection_creates (hd : document.Reachable) (path : SectionPath) :
    (∀ document' e, document.ensureSection path = (document', .error e) ↔ document' = document ∧
      document.sectionAt path = .error e ∧ ∀ q, e ≠ .sectionNotFound q) ∧
    (∀ place, document.sectionAt path = .ok place →
      document.ensureSection path = (document, .ok place)) ∧
    (∀ depth, depth < path.keys.length →
      document.sectionAt path = .error (.sectionNotFound (path.take (depth + 1))) →
      ∃ documents document' place, document.ensureSection path = (document', .ok place) ∧
        document.rounds path.keys.length path = (documents, .ok place.literal) ∧
        documents.getLast? = some document' ∧ documents.length = path.keys.length - depth ∧
        Creates document document' path depth) ∧
    (∀ document' place, document.ensureSection path = (document', .ok place) →
      document'.sectionAt path = .ok place ∧
      document'.ensureSection path = (document', .ok place)) ∧
    ∀ position q, (document.ensureSection path).2 ≠
      .error (.malformed position (.sectionNotCreated q)) := by
  refine ⟨fun _ _ => ensureSection_eq_error_iff hd.isRead, fun place hplace => ?_,
    fun depth hdepth hmissing => ?_, fun document' place hplace => ?_, fun position q he => ?_⟩
  · obtain ⟨rfl, hm⟩ := sectionAt_eq_ok_iff.1 hplace
    exact ensureSection_of_leads hm
  · cases hlocate : document.locate path with
    | error e =>
      rw [sectionAt, hlocate] at hmissing
      exact absurd (Except.error.inj hmissing) (ne_sectionNotFound_of_locate hlocate _)
    | ok located =>
      rw [sectionAt, hlocate] at hmissing
      cases located with
      | found => cases hmissing
      | missing parent reached key deeper =>
        obtain ⟨_, hkeys, rfl, hparent, hnone⟩ := walk_eq_missing_iff.1 hlocate
        have hlength : path.keys.length = reached.length + (deeper.length + 1) := by
          rw [hkeys, List.length_append, List.length_cons]
        obtain rfl : reached.length = depth := by
          have htake := congrArg (·.keys.length)
            (DocumentError.sectionNotFound.inj (Except.error.inj hmissing))
          simp only [List.length_append, List.length_singleton, SectionPath.take,
            List.length_take] at htake
          omega
        have hlimit : deeper.length < path.keys.length := by omega
        obtain ⟨documents, m, hrounds, hcount, hcreated⟩ :=
          exists_rounds hd.isRead hkeys hparent hnone hlimit
        refine ⟨documents, documents.getLastD document, ⟨path, m⟩, ?_, hrounds, ?_, by omega,
          hcreated.creates hkeys hparent hnone⟩
        · rw [ensureSection, ensure, ensureWithin_eq_rounds, hrounds]
          rfl
        · cases documents with
          | nil => cases hcount
          | cons first later => rw [List.getLastD_cons, List.getLast?_cons, List.getLastD_eq_getLast?]
  · have hwalk : ∀ e, document.locate path ≠ .error e := by
      intro e he
      rw [ensureSection, ensure_of_error he] at hplace
      cases hplace
    obtain ⟨document₁, m, hensure, hensured⟩ := exists_ensured hd.isRead hwalk
    rw [ensureSection, hensure] at hplace
    cases hplace
    exact ⟨sectionAt_of_leads hensured.leads, ensureSection_of_leads hensured.leads⟩
  · obtain ⟨-, hplace, -⟩ := (ensureSection_eq_error_iff hd.isRead).1 (Prod.ext rfl he)
    unfold sectionAt at hplace
    split at hplace
    · rename_i hlocate
      exact (Blocked.error_ne (blocked_iff.2 (Or.inl hlocate))).2.1 _ _ (Except.error.inj hplace)
    · cases hplace
    · cases hplace

/-- Two sections are created behind a comment, for a key with an apostrophe and for the empty
key. -/
theorem ensureSection_creates_behind_comment :
    let document := ofText "<?php\nreturn ['a' => [/* none */]];\n".toList
    let path : SectionPath := ⟨["a".toList, "it's".toList, []]⟩
    document.Reachable ∧ 1 < path.keys.length ∧
      document.sectionAt path = .error (.sectionNotFound ⟨["a".toList, "it's".toList]⟩) ∧
      ∃ documents document' place, document.ensureSection path = (document', .ok place) ∧
        document.rounds path.keys.length path = (documents, .ok place.literal) ∧
        documents.getLast? = some document' ∧ documents.length = 2 ∧
        Creates document document' path 1 ∧ document'.sectionAt path = .ok place ∧
        document'.ensureSection path = (document', .ok place) := by
  intro document path
  have hd : document.Reachable := ofText_reachable "<?php\nreturn ['a' => [/* none */]];\n".toList
  have hmissing : document.sectionAt path =
      .error (.sectionNotFound ⟨["a".toList, "it's".toList]⟩) := by decide +kernel
  have hdepth : 1 < path.keys.length := by decide
  obtain ⟨-, -, hcreates, hagain, -⟩ := ensureSection_creates hd path
  obtain ⟨documents, document', place, hensure, hrounds, hlast, hcount, hcreated⟩ :=
    hcreates 1 hdepth hmissing
  obtain ⟨hplace, hsame⟩ := hagain document' place hensure
  exact ⟨hd, hdepth, hmissing, documents, document', place, hensure, hrounds, hlast, hcount,
    hcreated, hplace, hsame⟩

end Document
end Config
end Scaffold

/-
# Settled entries

An entry is settled in a document if its section has distinct keys and binds the key to the value
and to nothing else. Setting an entry settles it (`Settling.settled`), and a settled entry that is
set again leaves the document alone (`setEntry_of_settled`). The text of a document tells whether an
entry is settled in it, so an edit that reports a change has given the document another text
(`Settling.source_ne`).
-/

import Scaffold.Proofs.Document.Entries

namespace Scaffold
namespace Config

open Script (ArrayLiteral Item)

namespace Document

/-- The section at the path has distinct keys, and one item of it binds the key to the value. -/
def Settled (document : Document) (path : SectionPath) (key value : Text) : Prop :=
  ∃ m, Leads document document.file.root path.keys m ∧ (document.keyValues m).Nodup ∧
    ∃ item, document.matching m (.known key) = [item] ∧ document.evaluate item.value = .known value

/-- A document with the entry settled, out of one that had it settled just in case the change is
none. -/
structure Settling (document document' : Document) (path : SectionPath) (key value : Text)
    (change : Change) : Prop where
  isRead : document'.IsRead
  created_eq : document'.created = document.created
  settled : document'.Settled path key value
  unchanged : change = .unchanged → document' = document
  changed : change ≠ .unchanged → ¬document.Settled path key value

variable {document document' : Document} {path : SectionPath} {key value : Literal}
  {change : Change}

/-- Two readings of one text differ in nothing but how they began. -/
theorem IsRead.eq_of_source_eq (h : document.IsRead) (h' : document'.IsRead)
    (hcreated : document'.created = document.created)
    (hsource : document'.source = document.source) : document' = document := by
  have hfile : document'.file = document.file := by
    rw [IsRead, hsource, h] at h'
    exact (Except.ok.inj h').symm
  cases document
  cases document'
  cases hsource
  cases hfile
  cases hcreated
  rfl

/-- A change comes with another text. -/
theorem Settling.source_ne {key value : Text}
    (h : Settling document document' path key value change) (hread : document.IsRead)
    (hchange : change ≠ .unchanged) : document'.source ≠ document.source := by
  intro hsource
  obtain rfl := hread.eq_of_source_eq h.isRead h.created_eq hsource
  exact h.changed hchange h.settled

/-- What replaces a value or appends an item finds no settled entry. -/
theorem not_settled_of_setAs {document₁ : Document} {m : ArrayLiteral}
    (hensured : Ensured document document₁ path.keys m)
    (hset : SetAs document₁ path.keys m key value document' change)
    (hchange : change ≠ .unchanged) : ¬document.Settled path key.evaluated value.evaluated := by
  rintro ⟨n, hn, -, item, hitem, hvalue⟩
  have hm := hensured.leads
  rcases hensured.found_or_created with rfl | ⟨-, hnone⟩
  · obtain rfl := hm.unique hn
    cases hset with
    | unchanged => exact hchange rfl
    | replaced _ replaced value_ne =>
      obtain rfl := (List.cons.inj (replaced.unique.symm.trans hitem)).1
      exact value_ne hvalue
    | inserted _ appended =>
      rw [appended.missing] at hitem
      cases hitem
  · exact hnone n hn

/-- **Setting an entry settles it.** -/
theorem setEntry_settling (hread : document.IsRead) (hk : key.WellFormed) (hv : value.WellFormed)
    (hvr : ¬value.IsRelative) (h : document.setEntry path key value = (document', .ok change)) :
    Settling document document' path key.evaluated value.evaluated change := by
  obtain ⟨document₁, m, hensured, hnodup, hset⟩ := setEntry_setAs hread hk hv hvr h
  obtain ⟨m', hm', hnodup', item', hitem', hvalue'⟩ := hset.exists_binding hensured.leads hnodup
  refine ⟨hset.isRead hensured.isRead, ?_, ⟨m', hm', hnodup', item', hitem', hvalue'⟩, ?_,
    not_settled_of_setAs hensured hset⟩
  · rw [(hset.framed hensured.leads).created_eq, hensured.framed.created_eq]
  · intro hchange
    subst hchange
    rw [← hensured.eq_of_setAs hset (by decide)]
    cases hset
    rfl

/-- **A settled entry that is set again changes nothing.** -/
theorem setEntry_of_settled (h : document.Settled path key.evaluated value.evaluated) :
    document.setEntry path key value = (document, .ok .unchanged) := by
  obtain ⟨m, hm, hnodup, item, hitem, hvalue⟩ := h
  rw [setEntry, ensure_of_leads hm]
  simp only [setIn, checkUnique_eq_ok_iff.2 hnodup, find?_of_singleton hitem, if_pos hvalue]

end Document
end Config
end Scaffold

/-
# Setting an entry of a section

In a section with distinct keys an entry is set in one of three ways (`SetAs`): the item with the
key has the value already, or gets it, or there is no such item and one is appended. None of them
fails for literals that mean the same everywhere (`exists_setAs`), and none of them happens unseen
(`setAs_of_setIn`). Afterwards the section is where it was, its keys are distinct and one item binds
the key to the value (`SetAs.exists_binding`).
-/

import Scaffold.Proofs.Document.Append
import Scaffold.Proofs.Document.Frame
import Scaffold.Proofs.Document.Keys
import Scaffold.Proofs.Document.Replace

namespace Scaffold
namespace Config

open Script (ArrayLiteral Expression Item Value)

namespace Document

/-- What setting an entry in the literal `m` at some keys makes of a document. -/
inductive SetAs (document : Document) (keys : List Text) (m : ArrayLiteral)
    (key value : Literal) : Document → Change → Prop
  | unchanged {item : Item}
      (unique : document.matching m (.known key.evaluated) = [item])
      (value_eq : document.evaluate item.value = .known value.evaluated) :
      SetAs document keys m key value document .unchanged
  | replaced {document' : Document} {m' : ArrayLiteral} {item item' : Item}
      (edited : Edited document document' keys m m')
      (replaced : Replaced document document' key.evaluated m m' item item')
      (value_ne : document.evaluate item.value ≠ .known value.evaluated)
      (value_written : item'.value.written document'.source = document.written value)
      (value_eq : document'.evaluate item'.value = .known value.evaluated) :
      SetAs document keys m key value document' .replaced
  | inserted {document' : Document} {m' : ArrayLiteral} {e : Expression} {item' : Item}
      (edited : Edited document document' keys m m')
      (appended : Appended document document' key.evaluated m m' item')
      (key_eq : item'.key = some e)
      (key_written : e.written document'.source = document.written key)
      (value_written : item'.value.written document'.source = document.written value)
      (value_eq : document'.evaluate item'.value = .known value.evaluated) :
      SetAs document keys m key value document' .inserted

variable {document document' : Document} {keys : List Text} {m : ArrayLiteral}
  {key value : Literal} {change : Change}

/-- An item that has been added and is the only one with its key passes the check. -/
theorem checkAdded_of_matching {path : SectionPath} {wanted : Value} {item : Item}
    (hm : Leads document document.file.root path.keys m)
    (hitem : document.matching m wanted = [item]) : document.checkAdded path wanted = .ok () := by
  have hlocate : document.locate path = .ok (.found m) := walk_eq_found_iff.2 hm
  rw [checkAdded, hlocate]
  simp only [find?_of_singleton hitem]

/-- A key is added where the item put last has it. -/
theorem hasKey_of_checkAdded {m' : ArrayLiteral} {path : SectionPath} {wanted : Value}
    {item' : Item} (hn : document'.file.names = document.file.names)
    (hm : Leads document' document'.file.root path.keys m')
    (hmissing : document.matching m wanted = [])
    (hitems : ∃ before', m'.items = before' ++ [item'] ∧
      List.Forall₂ (Script.ItemTwin document.source document'.source) m.items before')
    (h : document'.checkAdded path wanted = .ok ()) : document'.hasKey wanted item' = true := by
  have hlocate : document'.locate path = .ok (.found m') := walk_eq_found_iff.2 hm
  obtain ⟨before', hm', htwins⟩ := hitems
  by_contra hno
  have hbefore := filter_twin hn wanted htwins
  rw [← matching_eq, hmissing, List.forall₂_nil_left_iff] at hbefore
  have hnone : document'.matching m' wanted = [] := by
    rw [matching_eq, hm', List.filter_append, hbefore, List.filter_cons_of_neg hno,
      List.filter_nil, List.append_nil]
  rw [checkAdded, hlocate] at h
  simp only [find?_of_nil hnone] at h
  cases h

/-- An entry that is there has its value or gets it. -/
theorem exists_setAs_present (hread : document.IsRead) {path : SectionPath}
    (hm : Leads document document.file.root path.keys m) (hnodup : (document.keyValues m).Nodup)
    {item : Item} (hitem : document.matching m (.known key.evaluated) = [item])
    (hv : value.WellFormed) (hvr : ¬value.IsRelative) :
    ∃ document' change, document.setIn m path key value = (document', .ok change) ∧
      SetAs document path.keys m key value document' change := by
  have hunique : document.checkUnique m path = .ok () := checkUnique_eq_ok_iff.2 hnodup
  by_cases hsame : document.evaluate item.value = .known value.evaluated
  · refine ⟨document, .unchanged, ?_, .unchanged hitem hsame⟩
    rw [setIn, hunique]
    simp only [find?_of_singleton hitem, if_pos hsame]
  · obtain ⟨document', m', item', offset, hsplice, hedited, hreplaced, hvw, htokens⟩ :=
      exists_replaced hread hm hitem (value.fragment hv document.file.names)
    have heval : document'.evaluate item'.value = .known value.evaluated := by
      rw [evaluate, hedited.names_eq, Literal.evaluate_pieces hvr htokens]
    refine ⟨document', .replaced, ?_, .replaced hedited hreplaced hsame hvw heval⟩
    rw [setIn, hunique]
    simp only [find?_of_singleton hitem, if_neg hsame]
    rw [written, hsplice]

/-- **An entry is set in a section with distinct keys.** -/
theorem exists_setAs (hread : document.IsRead) {path : SectionPath}
    (hm : Leads document document.file.root path.keys m) (hnodup : (document.keyValues m).Nodup)
    (hk : key.Representable) (hv : value.Representable) :
    ∃ document' change, document.setIn m path key value = (document', .ok change) ∧
      SetAs document path.keys m key value document' change := by
  have hunique : document.checkUnique m path = .ok () := checkUnique_eq_ok_iff.2 hnodup
  rcases matching_of_nodup hnodup (.known key.evaluated) with hmissing | ⟨item, hitem⟩
  · obtain ⟨kps, hkey, hkeyValue⟩ := Literal.exists_fragment hk document.file.names
    obtain ⟨vps, hvalue, hvalueValue⟩ := Literal.exists_fragment hv document.file.names
    obtain ⟨document', m', e, v, comma, offset, hsplice, hedited, happended, hkw, hvw, htokens⟩ :=
      exists_appended hread hm hmissing hkey hvalue hkeyValue
    have hadded := checkAdded_of_matching (hedited.leads hm) (happended.matching hedited.names_eq)
    have heval : document'.evaluate v = .known value.evaluated := by
      rw [evaluate, hedited.names_eq, hvalueValue v offset _ htokens]
    refine ⟨document', .inserted, ?_, .inserted hedited happended rfl hkw hvw heval⟩
    rw [setIn, hunique]
    simp only [find?_of_nil hmissing]
    rw [writtenItem, written, written, hsplice]
    simp only [hadded]
    rfl
  · exact exists_setAs_present hread hm hnodup hitem hv.wellFormed hv.not_isRelative

/-- **An entry that has been set is there.**  The key may refer to a class that is another one in
each place: where its item could not be found again, setting it has failed. -/
theorem setAs_of_setIn (hread : document.IsRead) {path : SectionPath}
    (hm : Leads document document.file.root path.keys m) (hk : key.WellFormed)
    (hv : value.WellFormed) (hvr : ¬value.IsRelative)
    (h : document.setIn m path key value = (document', .ok change)) :
    (document.keyValues m).Nodup ∧ SetAs document path.keys m key value document' change := by
  have hnodup : (document.keyValues m).Nodup := by
    cases hunique : document.checkUnique m path with
    | ok => exact checkUnique_eq_ok_iff.1 hunique
    | error e => simp [setIn, hunique] at h
  refine ⟨hnodup, ?_⟩
  rcases matching_of_nodup hnodup (.known key.evaluated) with hmissing | ⟨item, hitem⟩
  · obtain ⟨document₁, m', e, v, comma, _, offset, hsplice, hedited, hstyle, hitems, -, hvt, hkw,
      hvw⟩ := exists_itemLast hread hm (key.fragment hk document.file.names)
        (value.fragment hv document.file.names)
    rw [setIn, checkUnique_eq_ok_iff.2 hnodup] at h
    simp only [find?_of_nil hmissing] at h
    rw [writtenItem, written, written, hsplice] at h
    obtain ⟨rfl, hresult⟩ := Prod.mk.inj h
    obtain ⟨⟨⟩, hadded, rfl⟩ := Script.map_eq_ok_iff.1 hresult
    have hhasKey := hasKey_of_checkAdded hedited.names_eq (hedited.leads hm) hmissing hitems hadded
    have heval : document₁.evaluate v = .known value.evaluated := by
      rw [evaluate, hedited.names_eq, Literal.evaluate_pieces hvr hvt]
    exact .inserted hedited ⟨hstyle, hmissing, hhasKey, hitems⟩ rfl hkw hvw heval
  · obtain ⟨document₂, change₂, hset, hsetAs⟩ :=
      exists_setAs_present hread hm hnodup hitem hv hvr
    cases hset.symm.trans h
    exact hsetAs

namespace SetAs

/-- Setting an entry leaves a document that is read from its text. -/
theorem isRead (h : SetAs document keys m key value document' change) (hread : document.IsRead) :
    document'.IsRead := by
  cases h with
  | unchanged => exact hread
  | replaced edited => exact edited.isRead
  | inserted edited => exact edited.isRead

/-- **The section binds the key to the value, and its keys are distinct.** -/
theorem exists_binding (h : SetAs document keys m key value document' change)
    (hm : Leads document document.file.root keys m) (hnodup : (document.keyValues m).Nodup) :
    ∃ m', Leads document' document'.file.root keys m' ∧ (document'.keyValues m').Nodup ∧
      ∃ item', document'.matching m' (.known key.evaluated) = [item'] ∧
        document'.evaluate item'.value = .known value.evaluated := by
  cases h with
  | @unchanged item unique value_eq => exact ⟨m, hm, hnodup, item, unique, value_eq⟩
  | @replaced _ m' item item' edited replaced _ _ value_eq =>
    have halt : Altered document document' key.evaluated m m' := Or.inl ⟨item, item', replaced⟩
    exact ⟨m', edited.leads hm, halt.nodup edited.names_eq hnodup, item',
      replaced.matching edited.names_eq, value_eq⟩
  | @inserted _ m' e item' edited appended _ _ _ value_eq =>
    have halt : Altered document document' key.evaluated m m' := Or.inr ⟨item', appended⟩
    exact ⟨m', edited.leads hm, halt.nodup edited.names_eq hnodup, item',
      appended.matching edited.names_eq, value_eq⟩

/-- Setting an entry keeps the sections that are neither on the way to it nor below it. -/
theorem framed (h : SetAs document keys m key value document' change)
    (hm : Leads document document.file.root keys m) :
    Framed document document' (fun q => ¬q <+: keys ∧ ¬keys ++ [key.evaluated] <+: q)
      (keys ++ [key.evaluated]) := by
  cases h with
  | @unchanged item unique value_eq =>
    refine .refl fun {q s n} hq hn => ?_
    rcases List.prefix_concat_iff.1 hq with hq | hq
    · obtain ⟨rfl, hs⟩ := List.append_inj' hq rfl
      cases hs
      obtain rfl := hn.unique hm
      exact ⟨item, unique⟩
    · exact hm.present hq hn
  | replaced edited replaced => exact edited.framed (Or.inl ⟨_, _, replaced⟩)
  | inserted edited appended => exact edited.framed (Or.inr ⟨_, appended⟩)

end SetAs

end Document
end Config
end Scaffold

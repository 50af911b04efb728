/-
# The sections along a path

A path is walked one key after the other, so the section that it names is the last of those along
its prefixes. What a value is to a path that goes on into it is told by the grammar of array
literals:

| the tokens of the value | stated as | the path |
| --- | --- | --- |
| are an array literal | `StartsWithLiteral ts []` | goes on |
| open no literal, or go on behind one | `NoLiteral ts` | ends: not an array |
| open a literal that the grammar rejects | `Rejected ts` | ends: the fault of reading it |

With a key that no item has, or several, these are the ways to stop at a step (`Stops`). A path
either leads to a section or stops at one of its keys (`leads_or_stops`), and the error tells at
which and why (`sectionAt_along_prefixes`).
-/

import Scaffold.Proofs.Document.Blocked
import Scaffold.Proofs.Literal.Grammar

namespace Scaffold
namespace Script

/-! ### Values that a path goes on into -/

/-- The tokens start with those that open an array literal. -/
def OpensLiteral (ts : List Token) : Prop :=
  ∃ style start openStop op us, Opens style start openStop op ∧ ts = op ++ us

/-- The tokens are those of an array literal and the tokens `after`. -/
def StartsWithLiteral (ts after : List Token) : Prop :=
  ∃ style start openStop op us inside c segments,
    Opens style start openStop op ∧ ts = op ++ us ∧ Closes style us inside c after segments

/-- The tokens open no array literal, or others follow behind it. -/
def NoLiteral (ts : List Token) : Prop :=
  ¬OpensLiteral ts ∨ ∃ token after, StartsWithLiteral ts (token :: after)

/-- The tokens open an array literal, but the grammar has none that starts with them. -/
def Rejected (ts : List Token) : Prop := OpensLiteral ts ∧ ∀ after, ¬StartsWithLiteral ts after

section
variable {ts after : List Token}

/-- What starts with an array literal opens one. -/
theorem StartsWithLiteral.opensLiteral (h : StartsWithLiteral ts after) : OpensLiteral ts := by
  obtain ⟨style, start, openStop, op, us, -, -, -, hop, rfl, -⟩ := h
  exact ⟨style, start, openStop, op, us, hop, rfl⟩

/-- A literal is read just in case the tokens start with one. -/
theorem exists_read?_iff :
    (∃ n, ArrayLiteral.read? ts = .ok (some (n, after))) ↔ StartsWithLiteral ts after := by
  constructor
  · rintro ⟨n, hn⟩
    obtain ⟨op, I, c, rfl, hspans⟩ := read?_eq_some_iff.1 hn
    obtain ⟨inside, close, segments, hcloses⟩ := exists_closes hspans.opens hn
    exact ⟨_, _, _, op, _, inside, close, segments, hspans.opens, rfl, hcloses⟩
  · rintro ⟨style, start, openStop, op, us, inside, c, segments, hop, rfl, hcloses⟩
    obtain ⟨items, -, hread⟩ := hcloses.read?_eq hop
    exact ⟨_, hread⟩

/-- No literal is read just in case none is opened. -/
theorem read?_eq_none_iff : ArrayLiteral.read? ts = .ok none ↔ ¬OpensLiteral ts := by
  constructor
  · rintro h ⟨style, start, openStop, op, us, hop, rfl⟩
    exact read?_ne_none hop h
  · intro h
    unfold ArrayLiteral.read?
    cases hopening : ArrayOpening.read? ts with
    | none => rfl
    | some opening =>
      obtain ⟨op, hts, hop⟩ := ArrayOpening.opens_of_read? hopening
      exact absurd ⟨_, _, _, op, _, hop, hts⟩ h

/-- Reading fails just in case the tokens are rejected. -/
theorem exists_fault_iff :
    (∃ found, ArrayLiteral.read? ts = .error found) ↔ Rejected ts := by
  constructor
  · rintro ⟨found, hfound⟩
    refine ⟨?_, fun after hafter => ?_⟩
    · by_contra hno
      rw [read?_eq_none_iff.2 hno] at hfound
      cases hfound
    · obtain ⟨n, hn⟩ := exists_read?_iff.2 hafter
      rw [hn] at hfound
      cases hfound
  · rintro ⟨hopens, hnone⟩
    cases hread : ArrayLiteral.read? ts with
    | error found => exact ⟨found, rfl⟩
    | ok result =>
      cases result with
      | none => exact absurd hopens (read?_eq_none_iff.1 hread)
      | some found => exact absurd (exists_read?_iff.1 ⟨found.1, hread⟩) (hnone found.2)

/-- No tokens are a literal in two ways, with different tokens behind it. -/
theorem StartsWithLiteral.unique {after' : List Token} (h : StartsWithLiteral ts after)
    (h' : StartsWithLiteral ts after') : after' = after := by
  obtain ⟨n, hn⟩ := exists_read?_iff.2 h
  obtain ⟨n', hn'⟩ := exists_read?_iff.2 h'
  rw [hn] at hn'
  cases hn'
  rfl

/-- A value is a literal, or it is none, or the grammar rejects it. -/
theorem literal_or_none_or_rejected (ts : List Token) :
    StartsWithLiteral ts [] ∨ NoLiteral ts ∨ Rejected ts := by
  by_cases hopens : OpensLiteral ts
  · by_cases hrejected : ∀ after, ¬StartsWithLiteral ts after
    · exact Or.inr (Or.inr ⟨hopens, hrejected⟩)
    · simp only [not_forall, not_not] at hrejected
      obtain ⟨after, hafter⟩ := hrejected
      cases after with
      | nil => exact Or.inl hafter
      | cons token after => exact Or.inr (Or.inl (Or.inr ⟨token, after, hafter⟩))
  · exact Or.inr (Or.inl (Or.inl hopens))

/-- A value that is no literal is not a literal as a whole. -/
theorem NoLiteral.not_literal (h : NoLiteral ts) : ¬StartsWithLiteral ts [] := by
  intro hnil
  rcases h with hno | ⟨token, after, hafter⟩
  · exact hno hnil.opensLiteral
  · cases hafter.unique hnil

/-- A value that is no literal is not rejected. -/
theorem NoLiteral.not_rejected (h : NoLiteral ts) : ¬Rejected ts := by
  rintro ⟨hopens, hnone⟩
  rcases h with hno | ⟨token, after, hafter⟩
  · exact hno hopens
  · exact hnone _ hafter

end

end Script

namespace Config

open Script (ArrayLiteral Item Value StartsWithLiteral NoLiteral Rejected)

namespace Document

variable {document : Document}

/-- The walk of a longer path goes on from the literal that the first keys lead to. -/
theorem Leads.walk_append {l m : ArrayLiteral} {keys : List Text} (h : Leads document l keys m)
    (reached deeper : List Text) :
    document.walk l reached (keys ++ deeper) = document.walk m (reached ++ keys) deeper := by
  induction h generalizing reached with
  | here => rw [List.nil_append, List.append_nil]
  | step unique nested _ ih =>
    rw [List.cons_append, walk, find?_of_singleton unique]
    simp only [nested]
    rw [ih, List.append_assoc, List.singleton_append]

/-- The walk goes on from where the first keys lead. -/
theorem Leads.locate_append {m : ArrayLiteral} {keys : List Text}
    (h : Leads document document.file.root keys m) (deeper : List Text) :
    document.locate ⟨keys ++ deeper⟩ = document.walk m keys deeper := h.walk_append [] deeper

/-! ### One step -/

/-- What keeps a path from going on by a key from the literal `l` that the keys `reached` lead to,
and the error that it is reported with. -/
inductive Stops (document : Document) (l : ArrayLiteral) (reached : List Text) (key : Text) :
    DocumentError → Prop
  | missing (none : document.matching l (.known key) = []) :
      Stops document l reached key (.sectionNotFound ⟨reached ++ [key]⟩)
  | ambiguous (several : 1 < (document.matching l (.known key)).length) :
      Stops document l reached key (.ambiguousKey ⟨reached⟩ (Value.known key).describe)
  | notAnArray {item : Item} (unique : document.matching l (.known key) = [item])
      (other : NoLiteral item.value.tokens) :
      Stops document l reached key (.notAnArray ⟨reached ++ [key]⟩)
  | malformed {item : Item} {found : Script.FaultAt}
      (unique : document.matching l (.known key) = [item])
      (rejected : Rejected item.value.tokens)
      (fault : ArrayLiteral.read? item.value.tokens = .error found) :
      Stops document l reached key (.malformedAt document.source found.offset (.fault found.fault))

/-- A key leads on to one literal, or the path stops at it. -/
theorem step_or_stops (document : Document) (l : ArrayLiteral) (reached : List Text) (key : Text) :
    (∃ n, Leads document l [key] n) ∨ ∃ e, Stops document l reached key e := by
  rcases hmatching : document.matching l (.known key) with _ | ⟨item, _ | ⟨other, more⟩⟩
  · exact Or.inr ⟨_, .missing hmatching⟩
  · rcases Script.literal_or_none_or_rejected item.value.tokens with hliteral | hno | hrejected
    · obtain ⟨n, hn⟩ := Script.exists_read?_iff.2 hliteral
      exact Or.inl ⟨n, .step hmatching hn (.here n)⟩
    · exact Or.inr ⟨_, .notAnArray hmatching hno⟩
    · obtain ⟨found, hfound⟩ := Script.exists_fault_iff.2 hrejected
      exact Or.inr ⟨_, .malformed hmatching hrejected hfound⟩
  · refine Or.inr ⟨_, .ambiguous ?_⟩
    rw [hmatching]
    simp

/-- A path that stops at a key is not walked further. -/
theorem Stops.sectionAt_eq {m : ArrayLiteral} {reached : List Text} {key : Text} {e : DocumentError}
    (h : Stops document m reached key e) (hm : Leads document document.file.root reached m)
    (deeper : List Text) : document.sectionAt ⟨reached ++ key :: deeper⟩ = .error e := by
  unfold sectionAt
  rw [hm.locate_append, walk]
  cases h with
  | missing none => rw [find?_of_nil none]
  | ambiguous several => rw [find?_eq_error_iff.2 ⟨several, rfl⟩]
  | @notAnArray item unique other =>
    rw [find?_of_singleton unique]
    simp only
    rcases other with hno | ⟨token, after, hafter⟩
    · rw [Script.read?_eq_none_iff.2 hno]
    · obtain ⟨n, hn⟩ := Script.exists_read?_iff.2 hafter
      rw [hn]
  | malformed unique _ fault =>
    rw [find?_of_singleton unique]
    simp only [fault]

/-- A path leads to a section, or it stops at a key after some that lead to one. -/
theorem leads_or_stops (document : Document) (keys : List Text) :
    (∃ m, Leads document document.file.root keys m) ∨
      ∃ i, ∃ h : i < keys.length, ∃ m e, Leads document document.file.root (keys.take i) m ∧
        Stops document m (keys.take i) keys[i] e := by
  induction keys using List.reverseRecOn with
  | nil => exact Or.inl ⟨_, .here _⟩
  | append_singleton keys key ih =>
    rcases ih with ⟨m, hm⟩ | ⟨i, hi, m, e, hm, hstops⟩
    · rcases step_or_stops document m keys key with ⟨n, hn⟩ | ⟨e, hstops⟩
      · exact Or.inl ⟨n, hm.append hn⟩
      · refine Or.inr ⟨keys.length, by simp, m, e, ?_⟩
        rw [List.take_left, List.getElem_concat_length rfl]
        exact ⟨hm, hstops⟩
    · refine Or.inr ⟨i, by rw [List.length_append]; omega, m, e, ?_⟩
      rw [List.take_append_of_le_length hi.le, List.getElem_append_left hi]
      exact ⟨hm, hstops⟩

/-- A path that leads on at a step has one literal to go on into there. -/
theorem Leads.exists_step {keys : List Text} {m : ArrayLiteral}
    (h : Leads document document.file.root keys m) {i : Nat} (hi : i < keys.length) :
    ∃ l item, Leads document document.file.root (keys.take i) l ∧
      document.matching l (.known keys[i]) = [item] ∧ StartsWithLiteral item.value.tokens [] := by
  rw [← List.take_append_drop i keys, List.drop_eq_getElem_cons hi] at h
  obtain ⟨l, hl, hrest⟩ := h.split
  cases hrest with
  | step unique nested => exact ⟨l, _, hl, unique, Script.exists_read?_iff.1 ⟨_, nested⟩⟩

/-! ### The error tells the reason -/

section
variable {m : ArrayLiteral} {reached : List Text} {key : Text} {e : DocumentError}
  (h : Stops document m reached key e)
include h

/-- A path stops for want of a section just in case no item has the key. -/
theorem Stops.missing_iff :
    e = .sectionNotFound ⟨reached ++ [key]⟩ ↔ document.matching m (.known key) = [] := by
  cases h with
  | missing none => exact iff_of_true rfl none
  | ambiguous several => exact iff_of_false nofun fun hnil => by simp [hnil] at several
  | notAnArray unique => exact iff_of_false nofun fun hnil => by simp [hnil] at unique
  | malformed unique => exact iff_of_false nofun fun hnil => by simp [hnil] at unique

/-- A path stops at an ambiguous key just in case several items have it. -/
theorem Stops.ambiguous_iff :
    e = .ambiguousKey ⟨reached⟩ (Value.known key).describe ↔
      1 < (document.matching m (.known key)).length := by
  cases h with
  | missing none => exact iff_of_false nofun fun hseveral => by simp [none] at hseveral
  | ambiguous several => exact iff_of_true rfl several
  | notAnArray unique => exact iff_of_false nofun fun hseveral => by simp [unique] at hseveral
  | malformed unique => exact iff_of_false nofun fun hseveral => by simp [unique] at hseveral

/-- A path stops before an array just in case the one item with the key has another value. -/
theorem Stops.notAnArray_iff :
    e = .notAnArray ⟨reached ++ [key]⟩ ↔
      ∃ item, document.matching m (.known key) = [item] ∧ NoLiteral item.value.tokens := by
  cases h with
  | missing none => exact iff_of_false nofun fun ⟨item, hitem, _⟩ => by simp [none] at hitem
  | ambiguous several =>
    exact iff_of_false nofun fun ⟨item, hitem, _⟩ => by simp [hitem] at several
  | notAnArray unique other => exact iff_of_true rfl ⟨_, unique, other⟩
  | malformed unique rejected =>
    refine iff_of_false nofun fun ⟨item, hitem, hno⟩ => ?_
    rw [unique] at hitem
    cases hitem
    exact hno.not_rejected rejected

/-- A path stops at a malformed array just in case the value of the one item is rejected. -/
theorem Stops.malformed_iff :
    (∃ place fault, e = .malformed place (.fault fault)) ↔
      ∃ item, document.matching m (.known key) = [item] ∧ Rejected item.value.tokens := by
  cases h with
  | missing none =>
    exact iff_of_false (by simp) fun ⟨item, hitem, _⟩ => by simp [none] at hitem
  | ambiguous several =>
    exact iff_of_false (by simp) fun ⟨item, hitem, _⟩ => by simp [hitem] at several
  | notAnArray unique other =>
    refine iff_of_false (by simp) fun ⟨item, hitem, hrejected⟩ => ?_
    rw [unique] at hitem
    cases hitem
    exact other.not_rejected hrejected
  | malformed unique rejected => exact iff_of_true ⟨_, _, rfl⟩ ⟨_, unique, rejected⟩

/-- Where a path stops, no value is a literal to go on into. -/
theorem Stops.no_literal {item : Item} (hitem : document.matching m (.known key) = [item]) :
    ¬StartsWithLiteral item.value.tokens [] := by
  cases h with
  | missing none => simp [none] at hitem
  | ambiguous several => simp [hitem] at several
  | notAnArray unique other =>
    rw [unique] at hitem
    cases hitem
    exact other.not_literal
  | malformed unique rejected =>
    rw [unique] at hitem
    cases hitem
    exact rejected.2 []

end

/-- **A section is found along the prefixes of its path.**  There is one just in case at each step
the section before has one item for the next key, whose value is an array literal. A longer path is
walked on from the literal of the section. Without a section, the error names the first step that
fails and tells the reason: no item for the key, several, a value that is no array literal, or one
that the grammar rejects. -/
theorem sectionAt_along_prefixes (document : Document) (path : SectionPath) :
    ((∃ place, document.sectionAt path = .ok place) ↔
      ∀ i (h : i < path.keys.length), ∃ place item,
        document.sectionAt (path.take i) = .ok place ∧
        document.matching place.literal (.known path.keys[i]) = [item] ∧
        StartsWithLiteral item.value.tokens []) ∧
    (∀ place, document.sectionAt path = .ok place → ∀ deeper,
      document.locate ⟨path.keys ++ deeper⟩ = document.walk place.literal path.keys deeper) ∧
    ∀ e, document.sectionAt path = .error e → ∃ i, ∃ h : i < path.keys.length, ∃ place,
      document.sectionAt (path.take i) = .ok place ∧
      (∀ next, document.sectionAt (path.take (i + 1)) ≠ .ok next) ∧
      (e = .sectionNotFound (path.take (i + 1)) ↔
        document.matching place.literal (.known path.keys[i]) = []) ∧
      (e = .ambiguousKey (path.take i) (Value.known path.keys[i]).describe ↔
        1 < (document.matching place.literal (.known path.keys[i])).length) ∧
      (e = .notAnArray (path.take (i + 1)) ↔ ∃ item,
        document.matching place.literal (.known path.keys[i]) = [item] ∧
        NoLiteral item.value.tokens) ∧
      ((∃ position fault, e = .malformed position (.fault fault)) ↔ ∃ item,
        document.matching place.literal (.known path.keys[i]) = [item] ∧
        Rejected item.value.tokens) := by
  refine ⟨⟨?_, fun hsteps => ?_⟩, fun place hplace deeper => ?_, fun e he => ?_⟩
  · rintro ⟨place, hplace⟩ i hi
    obtain ⟨l, item, hl, hitem, hliteral⟩ := (sectionAt_eq_ok_iff.1 hplace).2.exists_step hi
    exact ⟨⟨path.take i, l⟩, item, sectionAt_of_leads hl, hitem, hliteral⟩
  · rcases leads_or_stops document path.keys with ⟨m, hm⟩ | ⟨i, hi, m, e, hm, hstops⟩
    · exact ⟨⟨path, m⟩, sectionAt_of_leads hm⟩
    · obtain ⟨place, item, hplace, hitem, hliteral⟩ := hsteps i hi
      obtain rfl := (sectionAt_eq_ok_iff.1 hplace).2.unique hm
      exact absurd hliteral (hstops.no_literal hitem)
  · exact (sectionAt_eq_ok_iff.1 hplace).2.locate_append deeper
  · rcases leads_or_stops document path.keys with ⟨m, hm⟩ | ⟨i, hi, m, e', hm, hstops⟩
    · rw [sectionAt_of_leads hm] at he
      cases he
    · have hpath : path = ⟨path.keys.take i ++ path.keys[i] :: path.keys.drop (i + 1)⟩ := by
        rw [← List.drop_eq_getElem_cons hi, List.take_append_drop]
      have hnext : path.take (i + 1) = ⟨path.keys.take i ++ [path.keys[i]]⟩ := by
        rw [SectionPath.take, List.take_append_getElem hi]
      have herror : document.sectionAt path = .error e' := by
        rw [hpath, hstops.sectionAt_eq hm]
      obtain rfl : e' = e := Except.error.inj (herror.symm.trans he)
      refine ⟨i, hi, ⟨path.take i, m⟩, sectionAt_of_leads hm, fun next hok => ?_, ?_⟩
      · rw [hnext, hstops.sectionAt_eq hm []] at hok
        cases hok
      · rw [hnext]
        exact ⟨hstops.missing_iff, hstops.ambiguous_iff, hstops.notAnArray_iff,
          hstops.malformed_iff⟩

end Document
end Config
end Scaffold

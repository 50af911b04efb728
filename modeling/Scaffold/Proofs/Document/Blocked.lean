/-
# When an entry cannot be set

Setting an entry fails for what is in the document before: on the way to its section a key may
belong to several items, or to a value that is no array literal or a malformed one, and the section
itself may list a key twice (`Blocked`). Nothing else fails, neither the creation of sections nor
the reading of a text that has been edited, and a document whose edit fails has not changed
(`setEntry_eq_error_iff`).
-/

import Scaffold.Proofs.Document.Entries

namespace Scaffold
namespace Config

open Script (ArrayLiteral Item Value)

namespace Document

/-- What stands in the way of setting an entry in the section that some keys lead to from a
literal, and the error that it is reported with. The keys `reached` lead to the literal. -/
inductive Blocked (document : Document) :
    ArrayLiteral → List Text → List Text → DocumentError → Prop
  | ambiguous {l : ArrayLiteral} {reached keys : List Text} {key : Text}
      (several : 1 < (document.matching l (.known key)).length) :
      Blocked document l reached (key :: keys)
        (.ambiguousKey ⟨reached⟩ (Value.known key).describe)
  | malformed {l : ArrayLiteral} {reached keys : List Text} {key : Text} {item : Item}
      {found : Script.FaultAt} (unique : document.matching l (.known key) = [item])
      (fault : ArrayLiteral.read? item.value.tokens = .error found) :
      Blocked document l reached (key :: keys)
        (.malformedAt document.source found.offset (.fault found.fault))
  | notAnArray {l : ArrayLiteral} {reached keys : List Text} {key : Text} {item : Item}
      (unique : document.matching l (.known key) = [item])
      (noFault : ∀ found, ArrayLiteral.read? item.value.tokens ≠ .error found)
      (noArray : ∀ n, ArrayLiteral.read? item.value.tokens ≠ .ok (some (n, []))) :
      Blocked document l reached (key :: keys) (.notAnArray ⟨reached ++ [key]⟩)
  | deeper {l n : ArrayLiteral} {reached keys : List Text} {key : Text} {item : Item}
      {e : DocumentError} (unique : document.matching l (.known key) = [item])
      (nested : ArrayLiteral.read? item.value.tokens = .ok (some (n, [])))
      (later : Blocked document n (reached ++ [key]) keys e) :
      Blocked document l reached (key :: keys) e
  | repeated {l : ArrayLiteral} {reached : List Text} {before after : List Value} {value : Value}
      (keys_eq : document.keyValues l = before ++ value :: after) (distinct : before.Nodup)
      (again : value ∈ before) :
      Blocked document l reached [] (.ambiguousKey ⟨reached⟩ value.describe)

variable {document : Document}

/-- Looking for an item fails just in case two have the wanted key. -/
theorem find?_eq_error_iff {l : ArrayLiteral} {wanted : Value} {path : SectionPath}
    {e : DocumentError} : document.find? l wanted path = .error e ↔
      1 < (document.matching l wanted).length ∧ e = .ambiguousKey path wanted.describe := by
  unfold find?
  split
  · rename_i hm
    simp [hm]
  · rename_i item hm
    simp [hm]
  · rename_i hnil hone
    have hlength : 1 < (document.matching l wanted).length := by
      match hm : document.matching l wanted with
      | [] => exact absurd hm hnil
      | [item] => exact absurd hm (hone item)
      | _ :: _ :: _ => simp
    simp [hlength, eq_comm]

/-- A blocked way cannot be walked, or it leads to a section with a repeated key. -/
theorem Blocked.stops {l : ArrayLiteral} {reached keys : List Text} {e : DocumentError}
    (h : Blocked document l reached keys e) : document.walk l reached keys = .error e ∨
      ∃ m, document.walk l reached keys = .ok (.found m) ∧
        document.checkUnique m ⟨reached ++ keys⟩ = .error e := by
  induction h with
  | ambiguous several =>
    rw [walk, find?_eq_error_iff.2 ⟨several, rfl⟩]
    exact Or.inl rfl
  | malformed unique fault =>
    rw [walk, find?_of_singleton unique]
    simp only [fault]
    exact Or.inl trivial
  | notAnArray unique noFault noArray =>
    rw [walk, find?_of_singleton unique]
    simp only
    split
    · rename_i found hfault
      exact absurd hfault (noFault found)
    · rename_i n hn
      exact absurd hn (noArray n)
    · exact Or.inl rfl
  | deeper unique nested _ ih =>
    rw [List.append_cons, walk, find?_of_singleton unique]
    simp only [nested]
    exact ih
  | @repeated l reached _ _ _ keys_eq distinct again =>
    rw [walk, List.append_nil]
    exact Or.inr ⟨l, rfl, checkUnique_eq_error_iff.2 ⟨_, _, _, keys_eq, distinct, again, rfl⟩⟩

/-- **The way is blocked just in case it cannot be walked or leads to a section with a repeated
key.** -/
theorem blocked_iff {l : ArrayLiteral} {reached keys : List Text} {e : DocumentError} :
    Blocked document l reached keys e ↔ document.walk l reached keys = .error e ∨
      ∃ m, document.walk l reached keys = .ok (.found m) ∧
        document.checkUnique m ⟨reached ++ keys⟩ = .error e := by
  refine ⟨Blocked.stops, fun h => ?_⟩
  induction keys generalizing l reached with
  | nil =>
    rw [walk, List.append_nil] at h
    rcases h with h | ⟨m, hm, h⟩
    · cases h
    · cases hm
      obtain ⟨before, value, after, hkeys, hdistinct, hagain, rfl⟩ := checkUnique_eq_error_iff.1 h
      exact .repeated hkeys hdistinct hagain
  | cons key keys ih =>
    rw [List.append_cons, walk] at h
    split at h
    · rename_i e' hfind
      obtain ⟨hseveral, rfl⟩ := find?_eq_error_iff.1 hfind
      simp only [Except.error.injEq, reduceCtorEq, false_and, exists_false, or_false] at h
      rw [← h]
      exact .ambiguous hseveral
    · simp at h
    · rename_i item hfind
      have hunique := find?_eq_ok_iff.1 hfind
      split at h
      · rename_i found hfault
        simp only [Except.error.injEq, reduceCtorEq, false_and, exists_false, or_false] at h
        rw [← h]
        exact .malformed hunique hfault
      · rename_i n hn
        exact .deeper hunique hn (ih h)
      · rename_i hnone hread
        simp only [Except.error.injEq, reduceCtorEq, false_and, exists_false, or_false] at h
        rw [← h]
        refine .notAnArray hunique (fun found hfault => ?_) fun n hn => ?_
        · rw [hread] at hfault
          cases hfault
        · rw [hread] at hn
          exact hnone n (Except.ok.inj hn)

/-- An edit of a document that is not blocked succeeds. -/
theorem setEntry_eq_ok_of_not_blocked (hread : document.IsRead) {path : SectionPath}
    {key value : Literal} (hk : key.Representable) (hv : value.Representable)
    (h : ∀ e, ¬Blocked document document.file.root [] path.keys e) :
    ∃ document' change, document.setEntry path key value = (document', .ok change) := by
  have hwalk : ∀ e, document.locate path ≠ .error e := fun e he =>
    h e (blocked_iff.2 (Or.inl he))
  obtain ⟨document₁, m, hensure, hensured⟩ := exists_ensured hread hwalk
  have hnodup : (document₁.keyValues m).Nodup := by
    rcases hensured.found_or_created with rfl | ⟨hempty, -⟩
    · cases hunique : document₁.checkUnique m path with
      | ok => exact checkUnique_eq_ok_iff.1 hunique
      | error e =>
        exact absurd (blocked_iff.2 (Or.inr ⟨m, walk_eq_found_iff.2 hensured.leads,
          (List.nil_append path.keys).symm ▸ hunique⟩)) (h e)
    · exact keyValues_nodup_of_empty hempty
  obtain ⟨document', change, hset, -⟩ :=
    exists_setAs hensured.isRead hensured.leads hnodup hk hv
  exact ⟨document', change, by rw [setEntry, hensure]; exact hset⟩

/-- An edit of a blocked document fails and changes nothing. -/
theorem setEntry_of_blocked {path : SectionPath} {e : DocumentError}
    (h : Blocked document document.file.root [] path.keys e) (key value : Literal) :
    document.setEntry path key value = (document, .error e) := by
  rcases blocked_iff.1 h with hwalk | ⟨m, hm, hunique⟩
  · rw [setEntry, ensure_of_error hwalk]
  · rw [setEntry, ensure_of_leads (walk_eq_found_iff.1 hm)]
    rw [List.nil_append] at hunique
    simp only [setIn, hunique]

/-- The errors that the document is blocked with are neither about a missing section nor about an
edited text. -/
theorem Blocked.error_ne {l : ArrayLiteral} {reached keys : List Text} {e : DocumentError}
    (h : Blocked document l reached keys e) :
    (∀ path, e ≠ .sectionNotFound path) ∧
      (∀ place path, e ≠ .malformed place (.sectionNotCreated path)) ∧
      ∀ place path, e ≠ .malformed place (.entryNotAdded path) := by
  induction h with
  | deeper _ _ _ ih => exact ih
  | malformed => exact ⟨nofun, nofun, nofun⟩
  | _ => exact ⟨nofun, nofun, nofun⟩

/-- **Setting an entry fails just in case the document is blocked, and then changes nothing.** So it
never fails because a section could not be created, or because an edited text could not be read. -/
theorem setEntry_eq_error_iff (hd : document.Reachable) (path : SectionPath) {key value : Literal}
    (hk : key.Representable) (hv : value.Representable) :
    (∀ document' e, document.setEntry path key value = (document', .error e) ↔
      document' = document ∧ Blocked document document.file.root [] path.keys e) ∧
    ∀ e, (document.setEntry path key value).2 = .error e →
      (∀ path, e ≠ .sectionNotFound path) ∧
      (∀ place path, e ≠ .malformed place (.sectionNotCreated path)) ∧
      ∀ place path, e ≠ .malformed place (.entryNotAdded path) := by
  have hiff : ∀ document' e, document.setEntry path key value = (document', .error e) ↔
      document' = document ∧ Blocked document document.file.root [] path.keys e := by
    intro document' e
    constructor
    · intro h
      by_cases hblocked : ∃ e, Blocked document document.file.root [] path.keys e
      · obtain ⟨e', hblocked⟩ := hblocked
        rw [setEntry_of_blocked hblocked] at h
        cases h
        exact ⟨rfl, hblocked⟩
      · obtain ⟨document₁, change, hok⟩ :=
          setEntry_eq_ok_of_not_blocked hd.isRead hk hv (not_exists.1 hblocked)
        rw [hok] at h
        cases h
    · rintro ⟨rfl, h⟩
      exact setEntry_of_blocked h key value
  refine ⟨hiff, fun e he => ?_⟩
  exact ((hiff _ e).1 (Prod.ext rfl he)).2.error_ne

/-- A value that is no array literal blocks the way to the entry. -/
theorem setEntry_blocked_by_number :
    let document := ofText "<?php\nreturn ['a' => 1];\n".toList
    document.setEntry ⟨["a".toList]⟩ (.string "k".toList) (.string "v".toList) =
        (document, .error (.notAnArray ⟨["a".toList]⟩)) ∧
      Blocked document document.file.root [] ["a".toList] (.notAnArray ⟨["a".toList]⟩) := by
  intro document
  have hstring : ∀ text, Literal.Representable (.string text) := fun _ => trivial
  obtain ⟨item, hunique, hread⟩ : ∃ item,
      document.matching document.file.root (.known "a".toList) = [item] ∧
        ArrayLiteral.read? item.value.tokens = .ok none :=
    ⟨document.file.root.items.head (by decide +kernel), by decide +kernel,
      Script.eq_ok_of_toOption (by decide +kernel)⟩
  have hblocked : Blocked document document.file.root [] ["a".toList]
      (.notAnArray ⟨["a".toList]⟩) :=
    .notAnArray hunique (by simp [hread]) (by simp [hread])
  have hset := setEntry_eq_error_iff (ofText_reachable "<?php\nreturn ['a' => 1];\n".toList)
    ⟨["a".toList]⟩ (hstring "k".toList) (hstring "v".toList)
  exact ⟨(hset.1 _ _).2 ⟨rfl, hblocked⟩, hblocked⟩

end Document
end Config
end Scaffold

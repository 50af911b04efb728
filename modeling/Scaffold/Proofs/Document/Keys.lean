/-
# The keys of a section

A section may list a key twice, and then nothing can be set in it. `checkUnique` names the first
key that was seen before (`checkUnique_eq_error_iff`), and succeeds just in case the keys have
pairwise distinct values (`checkUnique_eq_ok_iff`); then each value is the key of one item at most.
-/

import Scaffold.Proofs.Document.Touched
import Mathlib.Data.List.Nodup

namespace Scaffold
namespace Config

open Script (ArrayLiteral Expression Item Value ExpressionTwin ItemTwin)

namespace Document

/-- The values of the keys of a literal, in order. -/
def keyValues (document : Document) (l : ArrayLiteral) : List Value :=
  (l.items.filterMap Item.key).map document.evaluate

/-- No value is repeated just in case all are different and none has been seen. -/
theorem firstRepeated?_eq_none_iff {seen values : List Value} :
    firstRepeated? seen values = none ↔ values.Nodup ∧ ∀ v ∈ values, v ∉ seen := by
  induction values generalizing seen with
  | nil => simp [firstRepeated?]
  | cons v values ih =>
    rw [firstRepeated?]
    split
    · rename_i hv
      simp [hv]
    · rename_i hv
      rw [ih, List.nodup_cons]
      constructor
      · rintro ⟨hnodup, hseen⟩
        refine ⟨⟨fun hmem => hseen v hmem List.mem_cons_self, hnodup⟩, fun u hu => ?_⟩
        rcases List.mem_cons.1 hu with rfl | hu
        · exact hv
        · exact fun hmem => hseen u hu (List.mem_cons_of_mem _ hmem)
      · rintro ⟨⟨hfresh, hnodup⟩, hseen⟩
        refine ⟨hnodup, fun u hu hmem => ?_⟩
        rcases List.mem_cons.1 hmem with rfl | hmem
        · exact hfresh hu
        · exact hseen u (List.mem_cons_of_mem _ hu) hmem

/-- A value that is repeated comes after distinct values, and is one of them or was seen. -/
theorem firstRepeated?_eq_some_iff {seen values : List Value} {v : Value} :
    firstRepeated? seen values = some v ↔
      ∃ before after, values = before ++ v :: after ∧ before.Nodup ∧ (∀ u ∈ before, u ∉ seen) ∧
        (v ∈ before ∨ v ∈ seen) := by
  induction values generalizing seen with
  | nil => simp [firstRepeated?]
  | cons u values ih =>
    rw [firstRepeated?]
    constructor
    · intro h
      split at h
      · rename_i hu
        cases h
        exact ⟨[], values, rfl, .nil, fun _ hmem => absurd hmem List.not_mem_nil, Or.inr hu⟩
      · rename_i hu
        obtain ⟨before, after, rfl, hnodup, hseen, hv⟩ := ih.1 h
        refine ⟨u :: before, after, rfl, List.nodup_cons.2 ⟨?_, hnodup⟩,
          List.forall_mem_cons.2 ⟨hu, ?_⟩, ?_⟩
        · exact fun hmem => hseen u hmem List.mem_cons_self
        · exact fun w hw hmem => hseen w hw (List.mem_cons_of_mem _ hmem)
        · rcases hv with hv | hv
          · exact Or.inl (List.mem_cons_of_mem _ hv)
          · rcases List.mem_cons.1 hv with rfl | hv
            · exact Or.inl List.mem_cons_self
            · exact Or.inr hv
    · rintro ⟨before, after, hvalues, hnodup, hseen, hv⟩
      cases before with
      | nil =>
        cases hvalues
        rw [if_pos (hv.resolve_left List.not_mem_nil)]
      | cons w before =>
        cases hvalues
        obtain ⟨hw, hseen⟩ := List.forall_mem_cons.1 hseen
        obtain ⟨hfresh, hnodup⟩ := List.nodup_cons.1 hnodup
        rw [if_neg hw]
        refine ih.2 ⟨before, after, rfl, hnodup, fun x hx hmem => ?_, ?_⟩
        · rcases List.mem_cons.1 hmem with rfl | hmem
          · exact hfresh hx
          · exact hseen x hx hmem
        · rcases hv with hv | hv
          · rcases List.mem_cons.1 hv with rfl | hv
            · exact Or.inr List.mem_cons_self
            · exact Or.inl hv
          · exact Or.inr (List.mem_cons_of_mem _ hv)

variable {document : Document} {l : ArrayLiteral}

/-- The keys of a section pass the check just in case all are different. -/
theorem checkUnique_eq_ok_iff {path : SectionPath} :
    document.checkUnique l path = .ok () ↔ (document.keyValues l).Nodup := by
  have hiff := @firstRepeated?_eq_none_iff [] (document.keyValues l)
  rw [checkUnique, ← keyValues]
  cases hrepeated : firstRepeated? [] (document.keyValues l) with
  | none => simpa [hrepeated] using hiff
  | some value => simpa [hrepeated] using hiff

/-- The check of the keys fails at the first key that stands before. -/
theorem checkUnique_eq_error_iff {path : SectionPath} {e : DocumentError} :
    document.checkUnique l path = .error e ↔
      ∃ before value after, document.keyValues l = before ++ value :: after ∧ before.Nodup ∧
        value ∈ before ∧ e = .ambiguousKey path value.describe := by
  have hiff := fun v => @firstRepeated?_eq_some_iff [] (document.keyValues l) v
  rw [checkUnique, ← keyValues]
  constructor
  · intro h
    split at h
    · cases h
    · rename_i value hrepeated
      cases h
      obtain ⟨before, after, hvalues, hnodup, -, hmem⟩ := (hiff value).1 hrepeated
      exact ⟨before, value, after, hvalues, hnodup, hmem.resolve_right List.not_mem_nil, rfl⟩
  · rintro ⟨before, value, after, hvalues, hnodup, hmem, rfl⟩
    rw [(hiff value).2 ⟨before, after, hvalues, hnodup, fun _ _ => List.not_mem_nil, Or.inl hmem⟩]

/-- As many items have a key as the key has places among the keys. -/
theorem length_matching (wanted : Value) :
    (document.matching l wanted).length = (document.keyValues l).count wanted := by
  rw [matching_eq, keyValues]
  induction l.items with
  | nil => rfl
  | cons item items ih =>
    obtain ⟨key, value, comma⟩ := item
    cases key with
    | none =>
      rw [List.filter_cons_of_neg (by simp [hasKey]), ih]
      rfl
    | some key =>
      have hkeys : (⟨some key, value, comma⟩ :: items).filterMap Item.key =
          key :: items.filterMap Item.key := rfl
      rw [hkeys, List.map_cons, List.count_cons, ← ih]
      by_cases hkey : document.evaluate key = wanted
      · rw [List.filter_cons_of_pos (by simp [hasKey, hkey])]
        simp [hkey]
      · rw [List.filter_cons_of_neg (by simp [hasKey, hkey])]
        simp [hkey]

/-- With distinct keys, one item at most has a given key. -/
theorem matching_of_nodup (h : (document.keyValues l).Nodup) (wanted : Value) :
    document.matching l wanted = [] ∨ ∃ item, document.matching l wanted = [item] := by
  have hcount := List.nodup_iff_count.1 h wanted
  rw [← length_matching] at hcount
  cases hm : document.matching l wanted with
  | nil => exact Or.inl rfl
  | cons item items =>
    rw [hm, List.length_cons] at hcount
    obtain rfl : items = [] := List.length_eq_zero_iff.1 (by omega)
    exact Or.inr ⟨item, rfl⟩

/-- An empty section repeats no key. -/
theorem keyValues_nodup_of_empty (h : l.items = []) : (document.keyValues l).Nodup := by
  rw [keyValues, h]
  exact .nil

section
variable {document' : Document} (hn : document'.file.names = document.file.names)
include hn

/-- Items and their twins have the same keys. -/
theorem keyValues_twin {items items' : List Item}
    (h : List.Forall₂ (ItemTwin document.source document'.source) items items') :
    (items'.filterMap Item.key).map document'.evaluate =
      (items.filterMap Item.key).map document.evaluate := by
  induction h with
  | nil => rfl
  | @cons i i' items items' hi _ ih =>
    have hkey := hi.1
    obtain ⟨key, value, comma⟩ := i
    obtain ⟨key', value', comma'⟩ := i'
    cases hkey with
    | none => exact ih
    | @some e e' hk =>
      change document'.evaluate e' :: (items'.filterMap Item.key).map document'.evaluate =
        document.evaluate e :: (items.filterMap Item.key).map document.evaluate
      rw [evaluate_twin hn hk, ih]

/-- Replacing a value changes no key. -/
theorem Replaced.keyValues_eq {key : Text} {l l' : ArrayLiteral} {item item' : Item}
    (h : Replaced document document' key l l' item item') :
    document'.keyValues l' = document.keyValues l := by
  obtain ⟨before, after, before', after', hl, hl', hb, ha⟩ := h.items_eq
  obtain ⟨e, he, hvalue⟩ := hasKey_iff.1 (hasKey_of_matching h.unique)
  obtain ⟨e', he', hvalue'⟩ := hasKey_iff.1 (hasKey_of_matching (h.matching hn))
  unfold keyValues
  rw [hl, hl', List.filterMap_append, List.filterMap_append, List.map_append, List.map_append,
    keyValues_twin hn hb, List.filterMap_cons_some he, List.filterMap_cons_some he', List.map_cons,
    List.map_cons, keyValues_twin hn ha, hvalue, hvalue']

/-- An appended item adds its key behind the others. -/
theorem Appended.keyValues_eq {key : Text} {l l' : ArrayLiteral} {item' : Item}
    (h : Appended document document' key l l' item') :
    document'.keyValues l' = document.keyValues l ++ [.known key] := by
  obtain ⟨before', hl', hb⟩ := h.items_eq
  obtain ⟨e, he, hvalue⟩ := hasKey_iff.1 h.hasKey
  unfold keyValues
  rw [hl', List.filterMap_append, List.map_append, keyValues_twin hn hb,
    List.filterMap_cons_some he, List.filterMap_nil, List.map_singleton, hvalue]

/-- Distinct keys stay distinct. -/
theorem Altered.nodup {key : Text} {l l' : ArrayLiteral} (h : Altered document document' key l l')
    (hl : (document.keyValues l).Nodup) : (document'.keyValues l').Nodup := by
  rcases h with ⟨item, item', h⟩ | ⟨item', h⟩
  · rwa [h.keyValues_eq hn]
  · have hfresh : Value.known key ∉ document.keyValues l := by
      rw [← List.count_eq_zero, ← length_matching, h.missing, List.length_nil]
    rw [h.keyValues_eq hn]
    exact List.nodup_append.2 ⟨hl, List.nodup_singleton _, fun v hv w hw hvw =>
      hfresh (by rwa [← List.mem_singleton.1 hw, ← hvw])⟩

end

end Document
end Config
end Scaffold

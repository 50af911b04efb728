/-
# The bindings of a section

Evaluated, a section is a list of keys and values. Setting an entry rebinds a key where it stands
or puts a binding after the others, and the change tells which (`SetAs.exists_rebinds`).
-/

import Scaffold.Proofs.Document.Setting

namespace Scaffold
namespace Config

open Script (ArrayLiteral Expression Item Value ExpressionTwin ItemTwin)

namespace Document

/-- A key and a value of a section, evaluated. An item may have no key. -/
abbrev Binding := Option Value × Value

/-- The keys and values of a literal, in order. -/
def bindings (document : Document) (l : ArrayLiteral) : List Binding :=
  l.items.map fun item => (item.key.map document.evaluate, document.evaluate item.value)

/-- The binding with another value, if it is one of the key. -/
def rebind (key value : Text) (binding : Binding) : Binding :=
  if binding.1 = some (.known key) then (binding.1, .known value) else binding

/-- How bindings change when a key is bound to a value. -/
inductive Rebinds (key value : Text) (before : List Binding) : Change → List Binding → Prop
  | unchanged (same : (some (.known key), .known value) ∈ before) :
      Rebinds key value before .unchanged (before.map (rebind key value))
  | replaced {old : Value} (other : (some (.known key), old) ∈ before) (ne : old ≠ .known value) :
      Rebinds key value before .replaced (before.map (rebind key value))
  | inserted (fresh : ∀ old, (some (.known key), old) ∉ before) :
      Rebinds key value before .inserted (before ++ [(some (.known key), .known value)])

variable {document document' : Document} {l l' : ArrayLiteral} {key : Text}

/-- An item has the wanted key just in case its key evaluates to it. -/
theorem hasKey_iff_map_eq {wanted : Value} {item : Item} :
    document.hasKey wanted item = true ↔ item.key.map document.evaluate = some wanted := by
  rw [hasKey_iff, Option.map_eq_some_iff]

/-- A key is bound to a value just in case an item with that key has that value. -/
theorem mem_bindings_iff {value : Value} :
    (some (.known key), value) ∈ document.bindings l ↔
      ∃ item ∈ document.matching l (.known key), document.evaluate item.value = value := by
  simp only [bindings, List.mem_map, Prod.mk.injEq, matching_eq, List.mem_filter,
    hasKey_iff_map_eq, and_assoc]

/-- Where no item has the key, binding it anew changes no pair. -/
theorem map_rebind_of_other {items : List Item} (value : Text)
    (h : items.filter (document.hasKey (.known key)) = []) :
    (items.map fun item => (item.key.map document.evaluate, document.evaluate item.value)).map
        (rebind key value) =
      items.map fun item => (item.key.map document.evaluate, document.evaluate item.value) := by
  rw [List.map_map]
  refine List.map_congr_left fun item hitem => if_neg fun hkey => ?_
  exact List.filter_eq_nil_iff.1 h item hitem (hasKey_iff_map_eq.2 hkey)

/-- Binding a key to the value that it has changes nothing. -/
theorem map_rebind_of_matching {item : Item} {value : Text}
    (h : document.matching l (.known key) = [item])
    (hv : document.evaluate item.value = .known value) :
    (document.bindings l).map (rebind key value) = document.bindings l := by
  refine (List.map_congr_left fun binding hbinding => ?_).trans (List.map_id _)
  unfold rebind
  split
  · rename_i hkey
    obtain ⟨k, v⟩ := binding
    obtain rfl : k = some (.known key) := hkey
    obtain ⟨item', hitem', rfl⟩ := mem_bindings_iff.1 hbinding
    rw [h, List.mem_singleton] at hitem'
    rw [hitem', hv]
    rfl
  · rfl

section
variable (hn : document'.file.names = document.file.names)
include hn

/-- A key and its twin have the same value. -/
theorem key_evaluate_twin {e e' : Option Expression}
    (h : Option.Rel (ExpressionTwin document.source document'.source) e e') :
    e'.map document'.evaluate = e.map document.evaluate := by
  cases h with
  | none => rfl
  | some h => rw [Option.map_some, Option.map_some, evaluate_twin hn h]

/-- Items and their twins bind the same keys to the same values. -/
theorem bindings_twin {items items' : List Item}
    (h : List.Forall₂ (ItemTwin document.source document'.source) items items') :
    (items'.map fun item => (item.key.map document'.evaluate, document'.evaluate item.value)) =
      items.map fun item => (item.key.map document.evaluate, document.evaluate item.value) := by
  refine map_twin h fun i i' hi => ?_
  rw [key_evaluate_twin hn hi.1, evaluate_twin hn hi.2]

/-- An appended item adds its pair behind the others. -/
theorem Appended.bindings_eq {item' : Item} (h : Appended document document' key l l' item') :
    document'.bindings l' =
      document.bindings l ++ [(some (.known key), document'.evaluate item'.value)] := by
  obtain ⟨before', hl', hb⟩ := h.items_eq
  rw [bindings, hl', List.map_append, bindings_twin hn hb, List.map_singleton,
    hasKey_iff_map_eq.1 h.hasKey, bindings]

/-- A replaced value changes the pair of its key and no other. -/
theorem Replaced.bindings_eq {item item' : Item} {value : Text}
    (h : Replaced document document' key l l' item item')
    (hv : document'.evaluate item'.value = .known value) :
    document'.bindings l' = (document.bindings l).map (rebind key value) := by
  obtain ⟨before, after, before', after', hl, hl', hb, ha⟩ := h.items_eq
  obtain ⟨hbnone, hanone⟩ := others_of_matching h.unique hl
  have hkey := hasKey_iff_map_eq.1 (hasKey_of_matching h.unique)
  have hkey' := hasKey_iff_map_eq.1 (hasKey_of_matching (h.matching hn))
  rw [bindings, bindings, hl, hl', List.map_append, List.map_append, List.map_append,
    List.map_cons, List.map_cons, List.map_cons, bindings_twin hn hb, bindings_twin hn ha,
    map_rebind_of_other _ hbnone, map_rebind_of_other _ hanone, hkey, hkey', hv, rebind, if_pos rfl]

end

/-- **Setting an entry rebinds its key.** -/
theorem SetAs.exists_rebinds {keys : List Text} {m : ArrayLiteral} {k v : Literal} {change : Change}
    (h : SetAs document keys m k v document' change)
    (hm : Leads document document.file.root keys m) (hnodup : (document.keyValues m).Nodup) :
    ∃ m', Leads document' document'.file.root keys m' ∧ (document'.keyValues m').Nodup ∧
      Rebinds k.evaluated v.evaluated (document.bindings m) change (document'.bindings m') := by
  obtain ⟨m', hm', hnodup', -⟩ := h.exists_binding hm hnodup
  refine ⟨m', hm', hnodup', ?_⟩
  cases h with
  | @unchanged item unique value_eq =>
    obtain rfl := hm.unique hm'
    have hsame := map_rebind_of_matching unique value_eq
    have hrebinds : Rebinds k.evaluated v.evaluated (document.bindings m) .unchanged _ :=
      .unchanged (mem_bindings_iff.2
      ⟨item, by rw [unique]; exact List.mem_singleton_self _, value_eq⟩)
    rwa [hsame] at hrebinds
  | @replaced _ m₂ item item' edited replaced value_ne _ value_eq =>
    obtain rfl := (edited.leads hm).unique hm'
    rw [replaced.bindings_eq edited.names_eq value_eq]
    refine .replaced (mem_bindings_iff.2 ⟨item, ?_, rfl⟩) value_ne
    rw [replaced.unique]
    exact List.mem_singleton_self _
  | @inserted _ m₂ e item' edited appended _ _ _ value_eq =>
    obtain rfl := (edited.leads hm).unique hm'
    rw [appended.bindings_eq edited.names_eq, value_eq]
    refine .inserted fun old hold => ?_
    obtain ⟨item, hitem, -⟩ := mem_bindings_iff.1 hold
    rw [appended.missing] at hitem
    exact List.not_mem_nil hitem

end Document
end Config
end Scaffold

/-
# Where a path leads

`Leads document l keys m` says that the keys lead from the literal `l` to the literal `m`: each key
is the key of exactly one item, whose value is an array literal and nothing else. `walk` finds a
literal just in case the keys lead to it (`walk_eq_found_iff`), and it stops at a missing key just
in case the keys before it lead to a literal without that key (`walk_eq_missing_iff`). Paths lead
to twins from twins (`Leads.twin`).
-/

import Scaffold.Config.Document
import Scaffold.Proofs.Literal.Twin

namespace Scaffold
namespace Config

open Script (ArrayLiteral Expression Item Value ExpressionTwin ItemTwin LiteralTwin)

namespace Document

variable {document : Document}

/-- Whether the key of an item has the given value. -/
def hasKey (document : Document) (wanted : Value) (item : Item) : Bool :=
  item.key.any fun key => document.evaluate key == wanted

/-- The items that match are those with the wanted key. -/
theorem matching_eq (l : ArrayLiteral) (wanted : Value) :
    document.matching l wanted = l.items.filter (document.hasKey wanted) := rfl

/-- An item has the wanted key if it has a key that evaluates to it. -/
theorem hasKey_iff {wanted : Value} {item : Item} :
    document.hasKey wanted item = true ↔ ∃ e, item.key = some e ∧ document.evaluate e = wanted := by
  obtain ⟨key, value, comma⟩ := item
  cases key with
  | none => simp [hasKey]
  | some e => simp [hasKey]

/-- The keys lead from the first literal to the second. -/
inductive Leads (document : Document) : ArrayLiteral → List Text → ArrayLiteral → Prop
  | here (literal : ArrayLiteral) : Leads document literal [] literal
  | step {l n m : ArrayLiteral} {item : Item} {key : Text} {keys : List Text}
      (unique : document.matching l (.known key) = [item])
      (nested : ArrayLiteral.read? item.value.tokens = .ok (some (n, [])))
      (later : Leads document n keys m) : Leads document l (key :: keys) m

/-- What is found is the one item that matches, or none if none does. -/
theorem find?_eq_ok_iff {l : ArrayLiteral} {wanted : Value} {path : SectionPath}
    {found : Option Item} :
    document.find? l wanted path = .ok found ↔ document.matching l wanted = found.toList := by
  unfold find?
  split
  · rename_i hm
    cases found <;> simp [hm]
  · rename_i item hm
    cases found <;> simp [hm]
  · rename_i hnil hone
    refine ⟨fun h => (by cases h), fun h => ?_⟩
    cases found with
    | none => exact absurd h hnil
    | some item => exact absurd h (hone item)

/-- The one item that matches is found. -/
theorem find?_of_singleton {l : ArrayLiteral} {wanted : Value} {item : Item}
    (h : document.matching l wanted = [item]) (path : SectionPath) :
    document.find? l wanted path = .ok (some item) := find?_eq_ok_iff.2 h

/-- Where no item matches, none is found. -/
theorem find?_of_nil {l : ArrayLiteral} {wanted : Value} (h : document.matching l wanted = [])
    (path : SectionPath) : document.find? l wanted path = .ok none := find?_eq_ok_iff.2 h

/-- **A literal is found where the keys lead.** -/
theorem walk_eq_found_iff {l m : ArrayLiteral} {reached keys : List Text} :
    document.walk l reached keys = .ok (.found m) ↔ Leads document l keys m := by
  induction keys generalizing l reached with
  | nil =>
    rw [walk]
    constructor
    · intro h
      cases h
      exact .here _
    · intro h
      cases h
      rfl
  | cons key keys ih =>
    rw [walk]
    constructor
    · intro h
      split at h
      · cases h
      · cases h
      · rename_i item hf
        split at h
        · cases h
        · rename_i n hn
          exact .step (find?_eq_ok_iff.1 hf) hn (ih.1 h)
        · cases h
    · intro h
      cases h with
      | @step _ n _ item _ _ unique nested later =>
        rw [find?_of_singleton unique]
        simp only [nested]
        exact ih.2 later

/-- **A key is missing where the keys before it lead to a literal without it.** -/
theorem walk_eq_missing_iff {l parent : ArrayLiteral} {reached keys before deeper : List Text}
    {key : Text} :
    document.walk l reached keys = .ok (.missing parent before key deeper) ↔
      ∃ shared, keys = shared ++ key :: deeper ∧ before = reached ++ shared ∧
        Leads document l shared parent ∧ document.matching parent (.known key) = [] := by
  induction keys generalizing l reached with
  | nil =>
    rw [walk]
    simp
  | cons k keys ih =>
    rw [walk]
    constructor
    · intro h
      split at h
      · cases h
      · rename_i hf
        cases h
        exact ⟨[], rfl, by simp, .here _, find?_eq_ok_iff.1 hf⟩
      · rename_i item hf
        split at h
        · cases h
        · rename_i n hn
          obtain ⟨shared, rfl, rfl, hlead, hmiss⟩ := ih.1 h
          exact ⟨k :: shared, rfl, by simp, .step (find?_eq_ok_iff.1 hf) hn hlead, hmiss⟩
        · cases h
    · rintro ⟨shared, hkeys, rfl, hlead, hmiss⟩
      cases hlead with
      | here =>
        obtain ⟨rfl, rfl⟩ := List.cons.inj hkeys
        rw [find?_of_nil hmiss]
        simp
      | @step _ n _ item _ _ unique nested later =>
        obtain ⟨rfl, rfl⟩ := List.cons.inj hkeys
        rw [find?_of_singleton unique]
        simp only [nested]
        exact ih.2 ⟨_, rfl, by simp, later, hmiss⟩

/-- Looking a section up gives the literal that the path leads to. -/
theorem sectionAt_eq_ok_iff {path : SectionPath} {place : Section} :
    document.sectionAt path = .ok place ↔
      place.path = path ∧ Leads document document.file.root path.keys place.literal := by
  unfold sectionAt locate
  constructor
  · intro h
    split at h
    · cases h
    · rename_i l hl
      cases h
      exact ⟨rfl, walk_eq_found_iff.1 hl⟩
    · cases h
  · rintro ⟨rfl, h⟩
    rw [walk_eq_found_iff.2 h]

namespace Leads

variable {l m n : ArrayLiteral} {keys deeper : List Text}

/-- One way leads on from the end of another. -/
theorem append (h : Leads document l keys m) (hd : Leads document m deeper n) :
    Leads document l (keys ++ deeper) n := by
  induction h with
  | here => exact hd
  | step unique nested _ ih => exact .step unique nested (ih hd)

/-- A way along some keys and then others goes through the end of the first. -/
theorem split (h : Leads document l (keys ++ deeper) n) :
    ∃ m, Leads document l keys m ∧ Leads document m deeper n := by
  induction keys generalizing l with
  | nil => exact ⟨l, .here _, h⟩
  | cons key keys ih =>
    cases h with
    | step unique nested later =>
      obtain ⟨m, hm, hn⟩ := ih later
      exact ⟨m, .step unique nested hm, hn⟩

/-- The keys behind the first one lead on from the literal in its item. -/
theorem behind {key : Text} {item : Item} (h : Leads document l (key :: keys) m)
    (unique : document.matching l (.known key) = [item])
    (nested : ArrayLiteral.read? item.value.tokens = .ok (some (n, []))) :
    Leads document n keys m := by
  cases h with
  | step unique' nested' later =>
    obtain rfl := (List.cons.inj (unique.symm.trans unique')).1
    rw [nested] at nested'
    cases nested'
    exact later

/-- Keys lead to one literal. -/
theorem unique (h : Leads document l keys m) (h' : Leads document l keys n) : m = n := by
  induction h with
  | here =>
    cases h'
    rfl
  | step unique nested _ ih => exact ih (h'.behind unique nested)

/-- On the way, each literal has one item for the next key. -/
theorem present (h : Leads document l keys n) {q : List Text} {key : Text}
    (hq : q ++ [key] <+: keys) (hm : Leads document l q m) :
    ∃ item, document.matching m (.known key) = [item] := by
  obtain ⟨rest, rfl⟩ := hq
  rw [List.append_assoc] at h
  obtain ⟨m', hm', hrest⟩ := h.split
  obtain rfl := hm.unique hm'
  cases hrest with
  | step unique => exact ⟨_, unique⟩

/-- No path goes on through a missing key. -/
theorem not_of_missing {q : List Text} {key : Text} (h : Leads document l keys m)
    (hmissing : document.matching m (.known key) = []) (hq : keys ++ [key] <+: q) :
    ¬Leads document l q n := by
  intro hn
  obtain ⟨item, hitem⟩ := hn.present hq h
  rw [hmissing] at hitem
  cases hitem

end Leads

/-! ### Twins -/

section
variable {document' : Document} (hn : document'.file.names = document.file.names)
include hn

/-- An expression and its twin have the same value. -/
theorem evaluate_twin {e e' : Expression}
    (h : ExpressionTwin document.source document'.source e e') :
    document'.evaluate e' = document.evaluate e := by
  unfold evaluate
  rw [hn, h.evaluate_eq]

/-- An item and its twin have the same key. -/
theorem hasKey_twin {i i' : Item}
    (h : Option.Rel (ExpressionTwin document.source document'.source) i.key i'.key)
    (wanted : Value) : document'.hasKey wanted i' = document.hasKey wanted i := by
  obtain ⟨key, value, comma⟩ := i
  obtain ⟨key', value', comma'⟩ := i'
  cases h with
  | none => rfl
  | some hk =>
    unfold hasKey
    rw [Option.any_some, Option.any_some, evaluate_twin hn hk]

/-- Among twins the same items have a given key. -/
theorem filter_twin {items items' : List Item} (wanted : Value)
    (h : List.Forall₂ (ItemTwin document.source document'.source) items items') :
    List.Forall₂ (ItemTwin document.source document'.source)
      (items.filter (document.hasKey wanted)) (items'.filter (document'.hasKey wanted)) :=
  List.rel_filter (fun i i' hi => by simp [hasKey_twin hn hi.1]) h

/-- From a literal and its twin, the same keys lead to twins. -/
theorem Leads.twin {l l' m : ArrayLiteral} {keys : List Text} (h : Leads document l keys m)
    (ht : LiteralTwin document.source document'.source l l') :
    ∃ m', Leads document' l' keys m' ∧ LiteralTwin document.source document'.source m m' := by
  induction h generalizing l' with
  | here => exact ⟨l', .here _, ht⟩
  | @step l n m item key keys unique nested _ ih =>
    have hf := filter_twin hn (.known key) ht.2
    rw [matching_eq] at unique
    rw [unique] at hf
    obtain ⟨item', items', hitem, hnil, hmatch⟩ := List.forall₂_cons_left_iff.1 hf
    cases hnil
    obtain ⟨n', hn', htwin⟩ := hitem.2.read? nested
    obtain ⟨m', hm', hmm⟩ := ih htwin
    exact ⟨m', .step hmatch hn' hm', hmm⟩

end

end Document
end Config
end Scaffold

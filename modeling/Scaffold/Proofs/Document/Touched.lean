/-
# What an edit touches

An edit of the section at a path touches one item in each literal on the way: the one that the
next key leads through. `Touched edited keys l l'` says that `l'` is `l` with the literal that the
keys lead to edited, and everything beside the way a twin of what it was. So the section is where
it was (`Touched.leads`), a path that goes on with the way meets a literal with one item altered
(`Touched.altered`), and every other path leads to a twin (`Touched.twin`).
-/

import Scaffold.Proofs.Document.Lookup

namespace Scaffold
namespace Config

open Script (ArrayLiteral Expression Item Value ExpressionTwin ItemTwin LiteralTwin)

namespace Document

section
variable (document document' : Document)

/-- The item `item'` has taken the place of the one item with the given key. -/
structure Replaced (key : Text) (l l' : ArrayLiteral) (item item' : Item) : Prop where
  style_eq : l'.style = l.style
  unique : document.matching l (.known key) = [item]
  key_twin : Option.Rel (ExpressionTwin document.source document'.source) item.key item'.key
  items_eq : ∃ before after before' after', l.items = before ++ item :: after ∧
    l'.items = before' ++ item' :: after' ∧
    List.Forall₂ (ItemTwin document.source document'.source) before before' ∧
    List.Forall₂ (ItemTwin document.source document'.source) after after'

/-- The item `item'` with the given key has been put after the last item; no item had the key. -/
structure Appended (key : Text) (l l' : ArrayLiteral) (item' : Item) : Prop where
  style_eq : l'.style = l.style
  missing : document.matching l (.known key) = []
  hasKey : document'.hasKey (.known key) item' = true
  items_eq : ∃ before', l'.items = before' ++ [item'] ∧
    List.Forall₂ (ItemTwin document.source document'.source) l.items before'

/-- At most the item with the given key is another than before. -/
def Altered (key : Text) (l l' : ArrayLiteral) : Prop :=
  (∃ item item', Replaced document document' key l l' item item') ∨
    ∃ item', Appended document document' key l l' item'

/-- The literal that the keys lead to has been edited, and nothing beside the way. -/
inductive Touched (edited : ArrayLiteral → ArrayLiteral → Prop) :
    List Text → ArrayLiteral → ArrayLiteral → Prop
  | here {l l' : ArrayLiteral} (h : edited l l') : Touched edited [] l l'
  | deeper {l l' n n' : ArrayLiteral} {item item' : Item} {key : Text} {keys : List Text}
      (replaced : Replaced document document' key l l' item item')
      (nested : ArrayLiteral.read? item.value.tokens = .ok (some (n, [])))
      (nested' : ArrayLiteral.read? item'.value.tokens = .ok (some (n', [])))
      (later : Touched edited keys n n') : Touched edited (key :: keys) l l'

end

section
variable {document document' : Document} (hn : document'.file.names = document.file.names)

/-- An item has one key. -/
theorem hasKey_unique {v w : Value} {item : Item} (hv : document.hasKey v item = true)
    (hw : document.hasKey w item = true) : v = w := by
  obtain ⟨e, he, rfl⟩ := hasKey_iff.1 hv
  obtain ⟨e', he', rfl⟩ := hasKey_iff.1 hw
  rw [he] at he'
  cases he'
  rfl

/-- The item that matches has the wanted key. -/
theorem hasKey_of_matching {l : ArrayLiteral} {wanted : Value} {item : Item}
    (h : document.matching l wanted = [item]) : document.hasKey wanted item = true := by
  have : item ∈ l.items.filter (document.hasKey wanted) := by
    rw [← matching_eq, h]
    exact List.mem_singleton_self item
  exact (List.mem_filter.1 this).2

/-- The item with a key is the only one. -/
theorem others_of_matching {l : ArrayLiteral} {wanted : Value} {item : Item}
    {before after : List Item} (h : document.matching l wanted = [item])
    (hl : l.items = before ++ item :: after) :
    before.filter (document.hasKey wanted) = [] ∧ after.filter (document.hasKey wanted) = [] := by
  have hlen := congrArg List.length h
  rw [matching_eq, hl, List.filter_append, List.filter_cons_of_pos (hasKey_of_matching h)] at hlen
  simp only [List.length_append, List.length_cons, List.length_nil] at hlen
  exact ⟨List.length_eq_zero_iff.1 (by omega), List.length_eq_zero_iff.1 (by omega)⟩

include hn

namespace Replaced

variable {key : Text} {l l' : ArrayLiteral} {item item' : Item}

/-- The item that takes the place of another is the one with the key. -/
theorem matching (h : Replaced document document' key l l' item item') :
    document'.matching l' (.known key) = [item'] := by
  obtain ⟨before, after, before', after', hl, hl', hb, ha⟩ := h.items_eq
  have hitem := hasKey_of_matching h.unique
  obtain ⟨hbnil, hanil⟩ := others_of_matching h.unique hl
  have hb' := filter_twin hn (.known key) hb
  have ha' := filter_twin hn (.known key) ha
  rw [hbnil, List.forall₂_nil_left_iff] at hb'
  rw [hanil, List.forall₂_nil_left_iff] at ha'
  rw [matching_eq, hl', List.filter_append, hb', List.filter_cons_of_pos, ha', List.nil_append]
  rw [hasKey_twin hn h.key_twin, hitem]

end Replaced

namespace Altered

variable {key : Text} {l l' : ArrayLiteral}

/-- The other items are twins. -/
theorem matching_other (h : Altered document document' key l l') {wanted : Value}
    (hw : wanted ≠ .known key) :
    List.Forall₂ (ItemTwin document.source document'.source)
      (document.matching l wanted) (document'.matching l' wanted) := by
  have hother : ∀ (d : Document) {i : Item}, d.hasKey (.known key) i = true →
      ¬d.hasKey wanted i = true := fun d i hi hwi => hw (hasKey_unique hwi hi)
  rcases h with ⟨item, item', h⟩ | ⟨item', h⟩
  · obtain ⟨before, after, before', after', hl, hl', hb, ha⟩ := h.items_eq
    have hitem := hasKey_of_matching h.unique
    have hitem' := hasKey_of_matching (h.matching hn)
    rw [matching_eq, matching_eq, hl, hl', List.filter_append, List.filter_append,
      List.filter_cons_of_neg (hother _ hitem), List.filter_cons_of_neg (hother _ hitem')]
    exact List.rel_append (filter_twin hn wanted hb) (filter_twin hn wanted ha)
  · obtain ⟨before', hl', hb⟩ := h.items_eq
    rw [matching_eq, matching_eq, hl', List.filter_append,
      List.filter_cons_of_neg (hother _ h.hasKey), List.filter_nil, List.append_nil]
    exact filter_twin hn wanted hb

/-- A path that starts with another key leads to a twin. -/
theorem leads_other (h : Altered document document' key l l') {k : Text} (hk : k ≠ key)
    {keys : List Text} {m : ArrayLiteral} (hm : Leads document l (k :: keys) m) :
    ∃ m', Leads document' l' (k :: keys) m' ∧
      LiteralTwin document.source document'.source m m' := by
  cases hm with
  | @step _ n _ item _ _ unique nested later =>
    have hmatch := h.matching_other hn (show Value.known k ≠ .known key by simpa using hk)
    rw [unique] at hmatch
    obtain ⟨item', items', hitem, hnil, hitems⟩ := List.forall₂_cons_left_iff.1 hmatch
    cases hnil
    obtain ⟨n', hn', htwin⟩ := hitem.2.read? nested
    obtain ⟨m', hm', hmm⟩ := later.twin hn htwin
    exact ⟨m', .step hitems hn' hm', hmm⟩

end Altered

namespace Touched

variable {edited : ArrayLiteral → ArrayLiteral → Prop} {keys q : List Text} {l l' m : ArrayLiteral}

/-- **The edited section is where it was.** -/
theorem leads (h : Touched document document' edited keys l l') (hm : Leads document l keys m) :
    ∃ m', Leads document' l' keys m' ∧ edited m m' := by
  induction h with
  | here h =>
    cases hm
    exact ⟨_, .here _, h⟩
  | @deeper l l' n n' item item' key keys replaced nested nested' _ ih =>
    obtain ⟨m', hm', he⟩ := ih (hm.behind replaced.unique nested)
    exact ⟨m', .step (replaced.matching hn) nested' hm', he⟩

variable {key : Text} (he : ∀ m m', edited m m' → Altered document document' key m m')
include he

/-- **On the way to the edit, one item is altered.** -/
theorem altered (h : Touched document document' edited keys l l') {s : Text} {rest : List Text}
    (hq : keys ++ [key] = q ++ s :: rest) (hm : Leads document l q m) :
    ∃ m', Leads document' l' q m' ∧ Altered document document' s m m' := by
  induction h generalizing q with
  | here h =>
    cases q with
    | nil =>
      cases hq
      cases hm
      exact ⟨_, .here _, he _ _ h⟩
    | cons k q => simp at hq
  | @deeper l l' n n' item item' k keys replaced nested nested' _ ih =>
    cases q with
    | nil =>
      cases hq
      cases hm
      exact ⟨_, .here _, Or.inl ⟨item, item', replaced⟩⟩
    | cons k' q =>
      obtain ⟨rfl, hrest⟩ := List.cons.inj hq
      obtain ⟨m', hm', halt⟩ := ih hrest (hm.behind replaced.unique nested)
      exact ⟨m', .step (replaced.matching hn) nested' hm', halt⟩

/-- **Off the way to the edit, a path leads to a twin.** -/
theorem twin (h : Touched document document' edited keys l l') (hq : ¬q <+: keys)
    (hk : ¬keys ++ [key] <+: q) (hm : Leads document l q m) :
    ∃ m', Leads document' l' q m' ∧ LiteralTwin document.source document'.source m m' := by
  induction h generalizing q with
  | here h =>
    cases q with
    | nil => exact absurd (List.prefix_refl _) hq
    | cons k q =>
      refine (he _ _ h).leads_other hn (fun hkk => hk ?_) hm
      rw [hkk]
      exact List.prefix_append [key] q
  | @deeper l l' n n' item item' k keys replaced nested nested' _ ih =>
    cases q with
    | nil => exact absurd List.nil_prefix hq
    | cons k' q =>
      by_cases hkk : k' = k
      · subst hkk
        rw [List.cons_prefix_cons, not_and] at hq
        rw [List.cons_append, List.cons_prefix_cons, not_and] at hk
        obtain ⟨m', hm', htwin⟩ := ih (hq rfl) (hk rfl) (hm.behind replaced.unique nested)
        exact ⟨m', .step (replaced.matching hn) nested' hm', htwin⟩
      · have halt : Altered document document' k l l' := Or.inl ⟨item, item', replaced⟩
        exact halt.leads_other hn hkk hm

end Touched

end

end Document
end Config
end Scaffold

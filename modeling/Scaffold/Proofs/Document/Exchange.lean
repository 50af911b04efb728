/-
# Editing a nested literal among the tokens

The tokens of a nested literal stand among those of the literals around it. When the tokens between
its brackets are exchanged, the tokens before them stay and those after them move, and the literals
around it are read as before beside the way to it (`Leads.exchange`).
-/

import Scaffold.Proofs.Document.Touched

namespace Scaffold
namespace Config

open Script (ArrayLiteral Expression Item Token Value Spans Carried ExpressionTwin ItemTwin
  LiteralTwin ValueBetween)

namespace Document

variable {document document' : Document}

/-- The item that matches stands among the items. -/
theorem items_eq_of_matching {l : ArrayLiteral} {wanted : Value} {item : Item}
    (h : document.matching l wanted = [item]) :
    ∃ before after, l.items = before ++ item :: after := by
  refine List.append_of_mem ?_
  have : item ∈ l.items.filter (document.hasKey wanted) := by
    rw [← matching_eq, h]
    exact List.mem_singleton_self item
  exact (List.mem_filter.1 this).1

/-- A key that is carried to another source text is a twin of itself. -/
theorem key_twin_of_before {key : Option Expression}
    (h : ∀ k ∈ key, Carried document.source document'.source 0 0 k.tokens) :
    Option.Rel (ExpressionTwin document.source document'.source) key key := by
  cases key with
  | none => exact .none
  | some k => exact .some ⟨0, 0, (Expression.move_self k).symm, h k rfl⟩

/-- The item with another value, after which the text moves. -/
def itemWith (item : Item) (value : Expression) (origin target : Nat) : Item :=
  ⟨item.key, value, item.comma.map fun place => place - origin + target⟩

/-- The literal with another value for the item between the items `before` and `after`. -/
def literalWith (l : ArrayLiteral) (before : List Item) (item : Item) (after : List Item)
    (value : Expression) (origin target : Nat) : ArrayLiteral :=
  { l with
    items := before ++ itemWith item value origin target :: after.map (Item.move origin target)
    close := l.close - origin + target }

section Value

variable {l : ArrayLiteral} {us vs : List Token} {before after : List Item} {item : Item}
  {origin target : Nat}

/-- With another value in an item, the tokens between the brackets are spanned as before. -/
theorem spans_literalWith {op : List Token} {c : Token}
    (h : Spans op (us ++ (item.value.tokens ++ vs)) c l)
    (hbetween : ValueBetween us vs before item after) {value : Expression}
    (hvalue : Script.Balanced value.tokens) (origin target : Nat) :
    Spans op (us ++ (value.tokens ++ vs.map (Token.move origin target))) (c.move origin target)
      (literalWith l before item after value origin target) where
  opens := h.opens
  listing := hbetween.listing origin target value hvalue
  closing := h.closing
  close_eq := by rw [Token.move, h.close_eq]; rfl

/-- The other items are twins, those before the value where they were and those after it moved. -/
theorem replaced_literalWith {key : Text} (hunique : document.matching l (.known key) = [item])
    (hitems : l.items = before ++ item :: after) (hbetween : ValueBetween us vs before item after)
    (hus : Carried document.source document'.source 0 0 us)
    (hvs : Carried document.source document'.source origin target vs) (value : Expression) :
    Replaced document document' key l (literalWith l before item after value origin target) item
      (itemWith item value origin target) := by
  refine ⟨rfl, hunique, key_twin_of_before fun k hk => hus.mono (hbetween.key_subset k hk), before,
    after, before, after.map (Item.move origin target), hitems, rfl, ?_, ?_⟩
  · exact List.forall₂_same.2 fun i hi =>
      .of_before (hus.mono (hbetween.before_subset i hi)) rfl rfl
  · rw [List.forall₂_map_right_iff]
    exact List.forall₂_same.2 fun i hi => Item.move_twin (hvs.mono (hbetween.after_subset i hi))

end Value

/-- **The tokens between the brackets of a nested literal can be exchanged.** -/
theorem Leads.exchange {l m : ArrayLiteral} {keys : List Text} (h : Leads document l keys m)
    {op I : List Token} {c : Token} (hl : Spans op I c l) :
    ∃ P Q opm Im cm, op ++ (I ++ [c]) = P ++ (opm ++ (Im ++ cm :: Q)) ∧ Spans opm Im cm m ∧
      op <+: P ++ opm ∧ c ∈ cm :: Q ∧
      ∀ {origin target : Nat} {Im' : List Token} {m' : ArrayLiteral},
        Spans opm Im' (cm.move origin target) m' →
        ∃ I' l', P ++ (opm ++ (Im' ++ (cm :: Q).map (Token.move origin target))) =
            op ++ (I' ++ [c.move origin target]) ∧
          Spans op I' (c.move origin target) l' ∧
          ∀ {document' : Document},
            Carried document.source document'.source 0 0 (P ++ opm) →
            Carried document.source document'.source origin target (cm :: Q) →
            Touched document document' (fun x x' => x = m ∧ x' = m') keys l l' := by
  induction h generalizing op I c with
  | here l =>
    refine ⟨[], [], op, I, c, rfl, hl, List.prefix_refl _, List.mem_singleton_self c, ?_⟩
    intro origin target Im' m' hm'
    exact ⟨Im', m', rfl, hm', fun _ _ => .here ⟨rfl, rfl⟩⟩
  | @step l n m item key keys unique nested later ih =>
    obtain ⟨before, after, hitems⟩ := items_eq_of_matching unique
    obtain ⟨us, vs, rfl, hbetween⟩ := hl.listing.exchange hitems
    obtain ⟨opn, In, cn, hvalue, hn⟩ := Script.read?_eq_some_iff.1 nested
    obtain ⟨P, Q, opm, Im, cm, htokens, hm, hopn, hcn, hedit⟩ := ih hn
    refine ⟨op ++ (us ++ P), Q ++ (vs ++ [c]), opm, Im, cm, ?_, hm, ?_, ?_, ?_⟩
    · rw [hvalue, htokens]
      simp only [List.append_assoc, List.cons_append]
    · rw [List.append_assoc]
      exact List.prefix_append _ _
    · simp
    · intro origin target Im' m' hm'
      obtain ⟨In', n', htokens', hn', htouched⟩ := hedit hm'
      have hbalanced := hn'.balanced
      let value : Expression := ⟨opn ++ (In' ++ [cn.move origin target]), hbalanced.1⟩
      refine ⟨_, literalWith l before item after value origin target, ?_,
        spans_literalWith hl hbetween hbalanced origin target, fun {document'} hP hQ => ?_⟩
      · have hvalue' : value.tokens =
            P ++ (opm ++ (Im' ++ (cm :: Q).map (Token.move origin target))) := htokens'.symm
        rw [hvalue']
        simp only [List.append_assoc, List.cons_append, List.map_cons, List.map_append,
          List.map_nil]
      · have hus : Carried document.source document'.source 0 0 us :=
          hP.mono fun t ht => by simp [ht]
        have hvs : Carried document.source document'.source origin target vs :=
          hQ.mono fun t ht => by simp [ht]
        have hreplaced := replaced_literalWith unique hitems hbetween hus hvs value
        have hnested : ArrayLiteral.read? value.tokens = .ok (some (n', [])) :=
          Script.read?_eq_some_iff.2 ⟨opn, In', _, rfl, hn'⟩
        refine .deeper hreplaced nested hnested (htouched ?_ ?_)
        · refine hP.mono ?_
          simp only [List.append_assoc]
          exact List.subset_append_of_subset_right _ (List.subset_append_right _ _)
        · exact hQ.mono (List.cons_subset_cons _ (List.subset_append_left _ _))

end Document
end Config
end Scaffold

/-
# The tokens of an array literal

`Spans op I c literal` says that the tokens `op` open the literal, that `I` lists its items and
that `c` closes it; `ArrayLiteral.read?` finds a literal where its tokens stand
(`read?_eq_some_iff`). The value of one item can be exchanged (`Listing.exchange`), and the tokens
after it move with the text they stand in.
-/

import Scaffold.Proofs.Literal.Listing
import Scaffold.Proofs.Scan.Tokens

namespace Scaffold
namespace Script

/-! ### Tokens elsewhere -/

/-- The expression as part of a text that starts at `target` instead of `origin`. -/
def Expression.move (origin target : Nat) (e : Expression) : Expression where
  tokens := e.tokens.map (Token.move origin target)
  nonempty := by simpa using e.nonempty

/-- A moved expression has the moved tokens. -/
@[simp] theorem Expression.move_tokens (origin target : Nat) (e : Expression) :
    (e.move origin target).tokens = e.tokens.map (Token.move origin target) := rfl

/-- Tokens that are moved to where they are stay. -/
@[simp] theorem map_move_self (ts : List Token) : ts.map (Token.move 0 0) = ts :=
  List.map_id'' Token.move_self ts

/-- An expression that is moved to where it is stays. -/
@[simp] theorem Expression.move_self (e : Expression) : e.move 0 0 = e := by
  obtain ⟨ts, h⟩ := e
  simp [Expression.move]

/-- The item as part of a text that starts at `target` instead of `origin`. -/
def Item.move (origin target : Nat) (item : Item) : Item where
  key := item.key.map (Expression.move origin target)
  value := item.value.move origin target
  comma := item.comma.map fun place => place - origin + target

/-- The tokens of key and value. -/
def Item.tokens (item : Item) : List Token :=
  (item.key.elim [] Expression.tokens) ++ item.value.tokens

/-- Moved tokens of an expression are tokens of an expression. -/
theorem Balanced.move {ts : List Token} (h : Balanced ts) (origin target : Nat) :
    Balanced (ts.map (Token.move origin target)) :=
  ⟨by simpa using h.1, (openAfter_map (Token.move origin target) (fun _ => rfl) [] ts).trans h.2⟩

/-- Moved tokens of an item are tokens of the moved item. -/
theorem Element.move {ts : List Token} {key : Option Expression} {value : Expression}
    (h : Element ts key value) (origin target : Nat) :
    Element (ts.map (Token.move origin target)) (key.map (Expression.move origin target))
      (value.move origin target) := by
  cases h with
  | bare hv =>
    have := hv.move origin target
    exact @Element.bare (value.move origin target) this
  | @keyed key value arrow hk ha hv =>
    rw [List.map_append, List.map_cons]
    exact @Element.keyed (key.move origin target) (value.move origin target) _
      (hk.move origin target) ha (hv.move origin target)

/-- Moved tokens list the moved items. -/
theorem Listing.move {ts : List Token} {items : List Item} (h : Listing ts items)
    (origin target : Nat) :
    Listing (ts.map (Token.move origin target)) (items.map (Item.move origin target)) := by
  induction h with
  | nil => exact .nil
  | last h => exact .last (h.move origin target)
  | cons h hc _ ih =>
    rw [List.map_append, List.map_cons, List.map_cons]
    exact .cons (h.move origin target) hc ih

/-! ### Changing a listing -/

/-- The tokens of an item are among those that it is read from. -/
theorem Element.tokens_subset {ts : List Token} {key : Option Expression} {value : Expression}
    (h : Element ts key value) (comma : Option Nat) : (Item.mk key value comma).tokens ⊆ ts := by
  cases h with
  | bare => exact List.Subset.refl _
  | keyed =>
    refine List.append_subset.2 ⟨List.subset_append_left _ _, ?_⟩
    exact fun t ht => List.mem_append_right _ (List.mem_cons_of_mem _ ht)

/-- The tokens of listed items are among those of the list. -/
theorem Listing.tokens_subset {ts : List Token} {items : List Item} (h : Listing ts items) :
    ∀ i ∈ items, i.tokens ⊆ ts := by
  induction h with
  | nil => exact fun i hi => absurd hi List.not_mem_nil
  | last h => exact List.forall_mem_singleton.2 (h.tokens_subset none)
  | @cons ts rest key value comma items h hc _ ih =>
    refine List.forall_mem_cons.2
      ⟨List.Subset.trans (h.tokens_subset _) (List.subset_append_left _ _), ?_⟩
    exact fun i hi t ht => List.mem_append_right _ (List.mem_cons_of_mem _ (ih i hi ht))

/-- The tokens before the value of an element, which may be another value. -/
theorem Element.split {ts : List Token} {key : Option Expression} {value : Expression}
    (h : Element ts key value) : ∃ us, ts = us ++ value.tokens ∧ Balanced value.tokens ∧
      (∀ k ∈ key, k.tokens ⊆ us ∧ ∃ us' arrow, us = us' ++ [arrow] ∧ arrow.kind = .doubleArrow) ∧
      ∀ value' : Expression, Balanced value'.tokens → Element (us ++ value'.tokens) key value' := by
  cases h with
  | bare hv => exact ⟨[], rfl, hv, fun k hk => absurd hk (by simp), fun value' hv' => .bare hv'⟩
  | @keyed key value arrow hk ha hv =>
    refine ⟨key.tokens ++ [arrow], by simp, hv, fun k hk => ?_, fun value' hv' => ?_⟩
    · obtain rfl : key = k := by simpa using hk
      exact ⟨List.subset_append_left _ _, key.tokens, arrow, rfl, ha⟩
    · rw [List.append_assoc, List.singleton_append]
      exact .keyed hk ha hv'

/-- The value of `item` stands between the tokens `us` and `vs` of a listing. -/
structure ValueBetween (us vs : List Token) (before : List Item) (item : Item) (after : List Item) :
    Prop where
  balanced : Balanced item.value.tokens
  before_subset : ∀ i ∈ before, i.tokens ⊆ us
  key_subset : ∀ k ∈ item.key, k.tokens ⊆ us
  after_subset : ∀ i ∈ after, i.tokens ⊆ vs
  arrow : item.key.isSome → ∃ us' arrow, us = us' ++ [arrow] ∧ arrow.kind = .doubleArrow
  comma : vs = [] ∨ ∃ comma vs', vs = comma :: vs' ∧ comma.kind = .comma
  /-- What stands before the value stays when the value changes, and what stands after it moves. -/
  listing : ∀ (origin target : Nat) (value : Expression), Balanced value.tokens →
    Listing (us ++ (value.tokens ++ vs.map (Token.move origin target)))
      (before ++ ⟨item.key, value, item.comma.map fun place => place - origin + target⟩ ::
        after.map (Item.move origin target))

/-- A value ends before a comma or the closing bracket. -/
theorem ValueBetween.exists_separator {us vs : List Token} {before after : List Item} {item : Item}
    (h : ValueBetween us vs before item after) {c : Token} {shape : Bracket}
    (hc : c.kind = .closing shape) (rest : List Token) : ∃ u later, vs ++ c :: rest = u :: later ∧
      (u.kind = .comma ∨ ∃ shape, u.kind = .closing shape) := by
  rcases h.comma with rfl | ⟨comma, vs', rfl, hcomma⟩
  · exact ⟨c, rest, rfl, Or.inr ⟨shape, hc⟩⟩
  · exact ⟨comma, vs' ++ c :: rest, rfl, Or.inl hcomma⟩

/-- **One value of a listing is exchanged.** -/
theorem Listing.exchange {ts : List Token} {items before after : List Item} {item : Item}
    (h : Listing ts items) (he : items = before ++ item :: after) :
    ∃ us vs, ts = us ++ (item.value.tokens ++ vs) ∧ ValueBetween us vs before item after := by
  induction h generalizing before with
  | nil => exact absurd he (by simp)
  | @last ts key value h =>
    obtain ⟨rfl, rfl, rfl⟩ : before = [] ∧ item = ⟨key, value, none⟩ ∧ after = [] := by
      cases before with
      | nil => cases he; exact ⟨rfl, rfl, rfl⟩
      | cons i before => simp at he
    obtain ⟨us, rfl, hbalanced, hk, hv⟩ := h.split
    refine ⟨us, [], by simp, ⟨hbalanced, fun i hi => absurd hi List.not_mem_nil,
      fun k hk' => (hk k hk').1, fun i hi => absurd hi List.not_mem_nil, fun hsome => ?_,
      Or.inl rfl, fun origin target value' hv' => ?_⟩⟩
    · obtain ⟨k, rfl⟩ := Option.isSome_iff_exists.1 hsome
      exact (hk k rfl).2
    · simpa using Listing.last (hv value' hv')
  | @cons ts rest key value comma items h hc later ih =>
    cases before with
    | nil =>
      cases he
      obtain ⟨us, rfl, hbalanced, hk, hv⟩ := h.split
      refine ⟨us, comma :: rest, by simp, ⟨hbalanced, fun i hi => absurd hi List.not_mem_nil,
        fun k hk' => (hk k hk').1, ?_, fun hsome => ?_, Or.inr ⟨comma, rest, rfl, hc⟩,
        fun origin target value' hv' => ?_⟩⟩
      · exact fun i hi => List.Subset.trans (later.tokens_subset i hi) (List.subset_cons_self _ _)
      · obtain ⟨k, rfl⟩ := Option.isSome_iff_exists.1 hsome
        exact (hk k rfl).2
      · rw [← List.append_assoc, List.map_cons]
        exact .cons (hv value' hv') hc (later.move origin target)
    | cons i before =>
      obtain ⟨rfl, hlater⟩ := List.cons.inj he
      obtain ⟨us, vs, rfl, hbetween⟩ := ih hlater
      refine ⟨ts ++ comma :: us, vs, by simp, ⟨hbetween.balanced, ?_, ?_, hbetween.after_subset,
        fun hsome => ?_, hbetween.comma, fun origin target value' hv' => ?_⟩⟩
      · refine List.forall_mem_cons.2
          ⟨List.Subset.trans (h.tokens_subset _) (List.subset_append_left _ _), fun i hi t ht => ?_⟩
        exact List.mem_append_right _ (List.mem_cons_of_mem _ (hbetween.before_subset i hi ht))
      · exact fun k hk t ht =>
          List.mem_append_right _ (List.mem_cons_of_mem _ (hbetween.key_subset k hk ht))
      · obtain ⟨us', arrow, rfl, ha⟩ := hbetween.arrow hsome
        exact ⟨ts ++ comma :: us', arrow, by simp, ha⟩
      · rw [List.append_assoc, List.cons_append]
        exact .cons h hc (hbetween.listing origin target value' hv')

/-- Items may follow where no item is or where a comma has been set. -/
theorem Listing.append {ts us : List Token} {items later : List Item} (h : Listing ts items)
    (hc : ∀ i ∈ items.getLast?, i.comma.isSome) (hl : Listing us later) :
    Listing (ts ++ us) (items ++ later) := by
  induction h with
  | nil => exact hl
  | last => exact absurd (hc _ rfl) (by simp)
  | @cons ts rest key value comma items h hcomma hrest ih =>
    rw [List.append_assoc, List.cons_append, List.cons_append]
    refine .cons h hcomma (ih fun i hi => hc i ?_)
    rw [List.getLast?_cons, Option.mem_def.1 hi]
    rfl

/-- A comma after the last item. -/
theorem Listing.appendComma {ts : List Token} {items : List Item} {last : Item}
    (h : Listing ts items) (hlast : items.getLast? = some last) (hn : last.comma = none)
    {comma : Token} (hc : comma.kind = .comma) :
    Listing (ts ++ [comma]) (items.dropLast ++ [{ last with comma := some comma.start }]) := by
  induction h with
  | nil => cases hlast
  | last h =>
    cases hlast
    exact .cons h hc .nil
  | @cons ts rest key value comma' items h hcomma hrest ih =>
    cases hi : items.getLast? with
    | none =>
      rw [List.getLast?_eq_none_iff] at hi
      subst hi
      cases hlast
      cases hn
    | some i =>
      have hne : items ≠ [] := by rintro rfl; cases hi
      rw [List.getLast?_cons, hi] at hlast
      obtain rfl : i = last := by simpa using hlast
      rw [List.dropLast_cons_of_ne_nil hne, List.append_assoc, List.cons_append, List.cons_append]
      exact .cons h hcomma (ih hi)

/-- A list without tokens is a list without items. -/
theorem Listing.eq_nil_iff {ts : List Token} {items : List Item} (h : Listing ts items) :
    ts = [] ↔ items = [] := by
  cases h with
  | nil => simp
  | last h =>
    cases h with
    | bare hv => simpa using hv.1
    | keyed => simp
  | cons => simp

/-- A listing ends with the comma after the last item, or with the last token of its value. -/
theorem Listing.getLast {ts : List Token} {items : List Item} {last : Item} (h : Listing ts items)
    (hlast : items.getLast? = some last) :
    ∃ us token, ts = us ++ [token] ∧
      ((∃ place, last.comma = some place ∧ token.kind = .comma ∧ token.start = place) ∨
        last.comma = none ∧ token.stop = last.stop) := by
  induction h with
  | nil => cases hlast
  | @last ts key value h =>
    cases hlast
    obtain ⟨before, rfl, -⟩ := h.split
    refine ⟨before ++ value.tokens.dropLast, value.tokens.getLast value.nonempty, ?_,
      Or.inr ⟨rfl, rfl⟩⟩
    rw [List.append_assoc, List.dropLast_concat_getLast]
  | @cons ts rest key value comma items h hcomma hrest ih =>
    cases hi : items.getLast? with
    | none =>
      rw [List.getLast?_eq_none_iff] at hi
      subst hi
      cases hlast
      obtain rfl := hrest.eq_nil_iff.2 rfl
      exact ⟨ts, comma, rfl, Or.inl ⟨_, rfl, hcomma, rfl⟩⟩
    | some i =>
      rw [List.getLast?_cons, hi] at hlast
      obtain rfl : i = last := by simpa using hlast
      obtain ⟨us, token, rfl, hend⟩ := ih hi
      exact ⟨ts ++ comma :: us, token, by simp, hend⟩

/-! ### Reading a literal -/

/-- The tokens that open a literal: how it is written, where it starts, and where its bracket
ends. -/
inductive Opens : ArrayStyle → Nat → Nat → List Token → Prop
  | short {bracket : Token} (hb : bracket.kind = .opening .square) :
      Opens .short bracket.start bracket.stop [bracket]
  | long {word bracket : Token} (hw : word.isWord "array".toList = true)
      (hb : bracket.kind = .opening .round) : Opens .long word.start bracket.stop [word, bracket]

/-- The tokens of an array literal: those that open it, those that list its items, and the bracket
that closes it. -/
structure Spans (op I : List Token) (c : Token) (literal : ArrayLiteral) : Prop where
  opens : Opens literal.style literal.start literal.openStop op
  listing : Listing I literal.items
  closing : c.kind = .closing literal.style.bracket
  close_eq : c.start = literal.close

/-- What opens a literal is read, whatever follows. -/
theorem ArrayOpening.read?_of_opens {style : ArrayStyle} {start openStop : Nat} {op : List Token}
    (h : Opens style start openStop op) (rest : List Token) : ∃ bracket : Token,
      bracket.stop = openStop ∧
        ArrayOpening.read? (op ++ rest) = some ⟨style, start, bracket, rest⟩ := by
  cases h with
  | @short bracket hb =>
    refine ⟨bracket, rfl, ?_⟩
    simp [ArrayOpening.read?, hb]
  | @long word bracket hw hb =>
    refine ⟨bracket, rfl, ?_⟩
    have hk : word.kind ≠ .opening .square := by
      intro hk
      rw [Token.isWord, hk] at hw
      cases hw
    simp only [List.cons_append, List.nil_append, ArrayOpening.read?]
    rw [if_neg hk, if_pos ⟨hw, hb⟩]

/-- An opening that is found stands at the head of the tokens. -/
theorem ArrayOpening.opens_of_read? {ts : List Token} {opening : ArrayOpening}
    (h : ArrayOpening.read? ts = some opening) : ∃ op, ts = op ++ opening.inside ∧
      Opens opening.style opening.start opening.bracket.stop op := by
  unfold ArrayOpening.read? at h
  split at h
  · cases h
  split at h
  · rename_i hb
    cases h
    exact ⟨_, rfl, .short hb⟩
  · split at h
    · split at h
      · rename_i hw
        cases h
        exact ⟨_, rfl, .long hw.1 hw.2⟩
      · cases h
    · cases h

/-- **A literal is read where its tokens stand.** -/
theorem read?_eq_some_iff {ts : List Token} {literal : ArrayLiteral} {rest : List Token} :
    ArrayLiteral.read? ts = .ok (some (literal, rest)) ↔
      ∃ op I c, ts = op ++ (I ++ c :: rest) ∧ Spans op I c literal := by
  constructor
  · intro h
    unfold ArrayLiteral.read? at h
    split at h
    · cases h
    rename_i style start bracket inside ho
    obtain ⟨⟨items, close, rest'⟩, hr, he⟩ := map_eq_ok_iff.1 h
    cases he
    obtain ⟨op, rfl, hop⟩ := ArrayOpening.opens_of_read? ho
    obtain ⟨I, c, rfl, hc, rfl, hI⟩ := readItems_ok_iff.1 hr
    exact ⟨op, I, c, rfl, hop, hI, hc, rfl⟩
  · rintro ⟨op, I, c, rfl, hspans⟩
    obtain ⟨bracket, hstop, ho⟩ := ArrayOpening.read?_of_opens hspans.opens (I ++ c :: rest)
    unfold ArrayLiteral.read?
    rw [ho]
    simp only [hspans.listing.readItems hspans.closing, Except.map, hstop, hspans.close_eq]

/-- What opens a literal leaves its bracket open. -/
theorem Opens.openAfter {style : ArrayStyle} {start openStop : Nat} {op : List Token}
    (h : Opens style start openStop op) : Script.openAfter [] op = some [style.bracket] := by
  cases h with
  | short hb => simp [hb, openStep, Script.openAfter, ArrayStyle.bracket]
  | @long word bracket hw hb =>
    have hk : word.kind = .word := by
      rw [Token.isWord, Bool.and_eq_true] at hw
      exact beq_iff_eq.1 hw.1
    simp [hb, hk, openStep, Script.openAfter, ArrayStyle.bracket]

/-- The tokens of a literal are an expression. -/
theorem Spans.balanced {op I : List Token} {c : Token} {literal : ArrayLiteral}
    (h : Spans op I c literal) : Balanced (op ++ (I ++ [c])) := by
  refine ⟨by simp, ?_⟩
  rw [openAfter_append, h.opens.openAfter, Option.bind_some, openAfter_append,
    h.listing.openAfter, Option.bind_some, openAfter_cons, h.closing]
  simp [openStep, openAfter]

/-- The opening tokens say how a literal is written and where it starts. -/
theorem Opens.unique {style style' : ArrayStyle} {start start' openStop openStop' : Nat}
    {op : List Token} (h : Opens style start openStop op) (h' : Opens style' start' openStop' op) :
    style' = style ∧ start' = start ∧ openStop' = openStop := by
  cases h <;> cases h' <;> exact ⟨rfl, rfl, rfl⟩

/-- What opens a literal ends with its bracket. -/
theorem Opens.exists_stop_eq {style : ArrayStyle} {start openStop : Nat} {op : List Token}
    (h : Opens style start openStop op) : ∃ us token, op = us ++ [token] ∧ token.stop = openStop ∧
      token.kind = .opening style.bracket := by
  cases h with
  | short hb => exact ⟨[], _, rfl, rfl, hb⟩
  | @long word bracket hw hb => exact ⟨[word], bracket, rfl, rfl, hb⟩

/-- Moved tokens that open a literal open one. -/
theorem Opens.move {style : ArrayStyle} {start openStop : Nat} {op : List Token}
    (h : Opens style start openStop op) (origin target : Nat) :
    ∃ start' openStop', Opens style start' openStop' (op.map (Token.move origin target)) := by
  cases h with
  | short hb => exact ⟨_, _, .short hb⟩
  | long hw hb => exact ⟨_, _, .long hw hb⟩

/-- The tokens of a literal read the same elsewhere. -/
theorem Spans.move {op I : List Token} {c : Token} {literal : ArrayLiteral}
    (h : Spans op I c literal) (origin target : Nat) :
    ∃ literal', Spans (op.map (Token.move origin target)) (I.map (Token.move origin target))
        (c.move origin target) literal' ∧ literal'.style = literal.style ∧
      literal'.items = literal.items.map (Item.move origin target) := by
  obtain ⟨start', openStop', ho⟩ := h.opens.move origin target
  exact ⟨⟨literal.style, start', openStop', literal.items.map (Item.move origin target), _⟩,
    ⟨ho, h.listing.move origin target, h.closing, rfl⟩, rfl, rfl⟩

end Script
end Scaffold

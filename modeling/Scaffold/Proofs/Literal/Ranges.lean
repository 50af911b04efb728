/-
# Where the tokens of a literal stand

The tokens of a source text stand in order, and those of a literal in a row among them, from its
opening to its closing bracket (`Spans.literalAt`). The tokens of an item are a row in this row, the
key before the arrow, the value behind it and the comma behind the value (`ItemAmong.itemAt`), and
as no token stands in two places, their indexes are determined (`InOrder.occupies_unique`).

What follows a value is a comma or the closing bracket, neither of which opens a literal. So what is
read at the first token of the value is what the value alone gives, and ends within it
(`ItemAmong.nestedAt`). `RowsAt` puts all this together for a literal and its items.
-/

import Scaffold.Proofs.Literal.Nested
import Scaffold.Proofs.Scan.Lossless

namespace Scaffold
namespace Script

/-! ### Tokens in a row -/

/-- The element behind the first `us` is found by their number. -/
theorem getElem?_length_of_eq {α : Type} {l us vs : List α} {a : α} (h : l = us ++ a :: vs) :
    l[us.length]? = some a := by
  rw [h, List.getElem?_append_right (Nat.le_refl _), Nat.sub_self, List.getElem?_cons_zero]

/-- The tokens `ts` are those with the indexes from `first` to `last`. -/
structure Occupies (tokens ts : List Token) (first last : Nat) : Prop where
  first_le : first ≤ last
  last_lt : last < tokens.length
  eq : ts = (tokens.drop first).take (last + 1 - first)

/-- Tokens occupy the indexes from the first to the last just in case they are the part between. -/
theorem occupies_iff {tokens ts : List Token} {first last : Nat} :
    Occupies tokens ts first last ↔ ts ≠ [] ∧
      ∃ us vs, tokens = us ++ (ts ++ vs) ∧ us.length = first ∧ first + ts.length = last + 1 := by
  constructor
  · rintro ⟨hle, hlt, rfl⟩
    refine ⟨?_, tokens.take first, (tokens.drop first).drop (last + 1 - first), ?_, ?_, ?_⟩
    · rw [← List.length_pos_iff, List.length_take, List.length_drop]
      omega
    · rw [List.take_append_drop, List.take_append_drop]
    · exact List.length_take_of_le (by omega)
    · rw [List.length_take, List.length_drop]
      omega
  · rintro ⟨hne, us, vs, rfl, rfl, hlength⟩
    have hpos := List.length_pos_iff.2 hne
    refine ⟨by omega, ?_, ?_⟩
    · rw [List.length_append, List.length_append]
      omega
    · rw [List.drop_left, show last + 1 - us.length = ts.length by omega, List.take_left]

namespace Occupies

variable {tokens ts : List Token} {first last : Nat}

/-- As many tokens as indexes from the first to the last. -/
theorem length_eq (h : Occupies tokens ts first last) : first + ts.length = last + 1 := by
  obtain ⟨-, us, vs, -, -, hlength⟩ := occupies_iff.1 h
  exact hlength

/-- The first of the tokens is at the first index. -/
theorem getElem?_first (h : Occupies tokens ts first last) : tokens[first]? = ts.head? := by
  obtain ⟨hne, us, vs, rfl, rfl, -⟩ := occupies_iff.1 h
  rw [List.getElem?_append_right (Nat.le_refl _), Nat.sub_self, ← List.head?_eq_getElem?,
    List.head?_append_of_ne_nil _ hne]

end Occupies

namespace InOrder

variable {source : Text} {tokens : List Token}

/-- Tokens in order are all different. -/
theorem nodup (h : InOrder source tokens) : tokens.Nodup := by
  refine h.ordered.imp_of_mem fun ht _ hle => ?_
  rintro rfl
  exact absurd (h.start_lt _ ht) (Nat.not_lt.2 hle)

/-- The same tokens do not stand in two places. -/
theorem occupies_unique (h : InOrder source tokens) {ts : List Token}
    {first last first' last' : Nat} (ho : Occupies tokens ts first last)
    (ho' : Occupies tokens ts first' last') :
    first' = first ∧ last' = last := by
  have hat := ho.getElem?_first.trans ho'.getElem?_first.symm
  have hlt := Nat.lt_of_le_of_lt ho.first_le ho.last_lt
  have hfirst := (List.getElem?_inj hlt h.nodup).1 hat
  have hlength := ho.length_eq
  have hlength' := ho'.length_eq
  omega

/-- Each token stands behind all before it. -/
theorem stop_le_start (h : InOrder source tokens) {us vs : List Token} (he : tokens = us ++ vs)
    {t u : Token} (ht : t ∈ us) (hu : u ∈ vs) : t.stop ≤ u.start :=
  (List.pairwise_append.1 (he ▸ h.ordered)).2.2 t ht u hu

/-- A part of tokens in order is in order. -/
theorem of_infix (h : InOrder source tokens) {ts : List Token} (hs : ts <:+: tokens) :
    InOrder source ts where
  ordered := h.ordered.sublist hs.sublist
  start_lt t ht := h.start_lt t (hs.subset ht)
  stop_le t ht := h.stop_le t (hs.subset ht)

/-- An expression reaches from its first token to its last one. -/
theorem expression_bounds {e : Expression} (h : InOrder source e.tokens) :
    ∀ t ∈ e.tokens, e.start ≤ t.start ∧ t.stop ≤ e.stop := by
  intro t ht
  constructor
  · obtain ⟨first, rest, he⟩ := List.exists_cons_of_ne_nil e.nonempty
    have hstart : e.start = first.start := by simp only [Expression.start, he, List.head_cons]
    rw [hstart]
    rw [he] at h ht
    rcases List.mem_cons.1 ht with rfl | ht
    · exact Nat.le_refl _
    · have hle := List.rel_of_pairwise_cons h.ordered ht
      have hlt := h.start_lt first List.mem_cons_self
      omega
  · have he := List.dropLast_concat_getLast e.nonempty
    have hlast := List.getLast_mem e.nonempty
    rw [← he] at ht
    rcases List.mem_append.1 ht with ht | ht
    · have hle := h.stop_le_start he.symm ht List.mem_cons_self
      have hlt := h.start_lt _ hlast
      unfold Expression.stop
      omega
    · rw [List.mem_singleton.1 ht]
      exact Nat.le_refl _

/-- An expression ends behind its start. -/
theorem start_lt_stop {e : Expression} (h : InOrder source e.tokens) : e.start < e.stop := by
  have hmem := List.head_mem e.nonempty
  have hlt := h.start_lt _ hmem
  have hbounds := h.expression_bounds _ hmem
  omega

end InOrder

/-! ### The tokens of an item -/

/-- What stands before a value: nothing, or its key and an arrow. -/
inductive KeyTokens : Option Expression → List Token → Prop
  | none : KeyTokens none []
  | some {key : Expression} {arrow : Token} (ha : arrow.kind = .doubleArrow) :
      KeyTokens (some key) (key.tokens ++ [arrow])

/-- What stands behind a value in a listing: nothing, or a comma and the items after it. -/
inductive CommaTokens : Option Nat → List Token → Prop
  | none : CommaTokens none []
  | some {comma : Token} {rest : List Token} (hc : comma.kind = .comma) :
      CommaTokens (some comma.start) (comma :: rest)

/-- The tokens of an item are those of its key, if it has one, and those of its value. -/
theorem Element.exists_key {ts : List Token} {key : Option Expression} {value : Expression}
    (h : Element ts key value) : ∃ head, ts = head ++ value.tokens ∧ Balanced value.tokens ∧
      KeyTokens key head := by
  cases h with
  | bare hv => exact ⟨[], rfl, hv, .none⟩
  | @keyed key value arrow hk ha hv =>
    exact ⟨key.tokens ++ [arrow], by rw [List.append_assoc, List.singleton_append], hv, .some ha⟩

/-- Each item stands among the tokens that list the items. -/
theorem Listing.exists_tokens {ts : List Token} {items : List Item} (h : Listing ts items)
    {item : Item} (hi : item ∈ items) : ∃ before head after,
      ts = before ++ (head ++ (item.value.tokens ++ after)) ∧ Balanced item.value.tokens ∧
        KeyTokens item.key head ∧ CommaTokens item.comma after := by
  induction h with
  | nil => exact absurd hi List.not_mem_nil
  | last h =>
    obtain rfl := List.mem_singleton.1 hi
    obtain ⟨head, rfl, hvalue, hkey⟩ := h.exists_key
    exact ⟨[], head, [], by rw [List.append_nil, List.nil_append], hvalue, hkey, .none⟩
  | @cons ts rest key value comma items h hc later ih =>
    rcases List.mem_cons.1 hi with rfl | hi
    · obtain ⟨head, rfl, hvalue, hkey⟩ := h.exists_key
      exact ⟨[], head, comma :: rest, List.append_assoc .., hvalue, hkey, .some hc⟩
    · obtain ⟨before, head, after, rfl, hitem⟩ := ih hi
      exact ⟨ts ++ comma :: before, head, after,
        by rw [List.append_assoc, List.cons_append], hitem⟩

/-! ### Literals and items by their indexes -/

/-- The tokens of a literal are those with the indexes from `first` to `last`, and its brackets are
parts of the source. -/
structure LiteralAt (source : Text) (tokens : List Token) (l : ArrayLiteral) (first last : Nat) :
    Prop where
  head : ∃ t, tokens[first]? = some t ∧ t.start = l.start
  opening : ∃ index t, first ≤ index ∧ index < last ∧ tokens[index]? = some t ∧
    t.kind = .opening l.style.bracket ∧ t.stop = l.openStop
  closing : ∃ t, tokens[last]? = some t ∧ t.kind = .closing l.style.bracket ∧ t.start = l.close
  start_lt : l.start < l.openStop
  openStop_le : l.openStop ≤ l.close
  close_lt : l.close < source.length

/-- The key of an item has the tokens before the arrow, and the arrow stands before the value. -/
structure KeyAt (tokens : List Token) (item : Item) (key : Expression) (first valueFirst : Nat) :
    Prop where
  exists_range : ∃ keyFirst keyLast, Occupies tokens key.tokens keyFirst keyLast ∧
    first < keyFirst ∧ keyLast + 2 = valueFirst
  start_eq : key.start = item.start
  start_lt : key.start < key.stop
  stop_le : key.stop ≤ item.value.start

/-- The comma after an item is the token after its value. -/
structure CommaAt (tokens : List Token) (item : Item) (place valueLast last : Nat) : Prop where
  token : ∃ t, tokens[valueLast + 1]? = some t ∧ t.kind = .comma ∧ t.start = place
  lt_last : valueLast + 1 < last
  stop_le : item.stop ≤ place

/-- The item stands between the brackets of a literal, which have the indexes `first` and `last`;
its value has the indexes from `valueFirst` to `valueLast`. -/
structure ItemAt (tokens : List Token) (l : ArrayLiteral) (first last : Nat) (item : Item)
    (valueFirst valueLast : Nat) : Prop where
  first_lt : first < valueFirst
  lt_last : valueLast < last
  openStop_le : l.openStop ≤ item.start
  start_le : item.start ≤ item.value.start
  value_start_lt : item.value.start < item.value.stop
  stop_le : item.stop ≤ l.close
  key : ∀ key ∈ item.key, KeyAt tokens item key first valueFirst
  comma : ∀ place ∈ item.comma, CommaAt tokens item place valueLast last ∧ place < l.close

/-- What is read at the first token of an item's value, once the items are known: the same as from
the value alone, no fault of brackets, and a literal that ends within the value and stands strictly
inside the literal of the item. -/
structure NestedAt (source : Text) (tokens : List Token) (l : ArrayLiteral) (item : Item)
    (valueFirst valueLast : Nat) : Prop where
  alone : ArrayLiteral.read? (tokens.drop valueFirst) =
    (ArrayLiteral.read? item.value.tokens).map
      (Option.map fun (n, rest) => (n, rest ++ tokens.drop (valueLast + 1)))
  fault : ∀ found, ArrayLiteral.read? (tokens.drop valueFirst) = .error found →
    ¬found.fault.OfBrackets
  within : ∀ n rest, ArrayLiteral.read? (tokens.drop valueFirst) = .ok (some (n, rest)) →
    ∃ close, LiteralAt source tokens n valueFirst close ∧ rest = tokens.drop (close + 1) ∧
      close ≤ valueLast ∧ n.start = item.value.start ∧ n.close < item.value.stop ∧
      l.openStop ≤ n.start ∧ n.close < l.close

/-- What opens a literal starts where its first token does. -/
theorem Opens.exists_head {style : ArrayStyle} {start openStop : Nat} {op : List Token}
    (h : Opens style start openStop op) : ∃ t, op.head? = some t ∧ t.start = start := by
  cases h with
  | short => exact ⟨_, rfl, rfl⟩
  | long => exact ⟨_, rfl, rfl⟩

/-- What opens a literal ends behind its start. -/
theorem Opens.start_lt {source : Text} {style : ArrayStyle} {start openStop : Nat}
    {op : List Token} (h : Opens style start openStop op) (ho : InOrder source op) :
    start < openStop := by
  cases h with
  | short => exact ho.start_lt _ List.mem_cons_self
  | @long word bracket =>
    have hword := ho.start_lt word List.mem_cons_self
    have hbracket := ho.start_lt bracket (by simp)
    have hsplit : [word, bracket] = [word] ++ [bracket] := rfl
    have hle := ho.stop_le_start hsplit List.mem_cons_self List.mem_cons_self
    omega

section
variable {source : Text} {tokens us op I rest : List Token} {c : Token} {l : ArrayLiteral}
  (ho : InOrder source tokens) (he : tokens = us ++ (op ++ (I ++ c :: rest)))
  (hs : Spans op I c l)
include ho he hs

/-- The brackets of a literal among the tokens of a source. -/
theorem Spans.literalAt :
    LiteralAt source tokens l us.length (us.length + op.length + I.length) := by
  obtain ⟨first, hfirst, hstart⟩ := hs.opens.exists_head
  obtain ⟨before, bracket, hop, hstop, hkind⟩ := hs.opens.exists_stop_eq
  have hclose : tokens = (us ++ op ++ I) ++ c :: rest := by
    simp only [he, List.append_assoc]
  have hbracket : tokens = (us ++ before) ++ bracket :: (I ++ c :: rest) := by
    simp only [he, hop, List.append_assoc, List.singleton_append]
  have hmem : c ∈ tokens := by simp [hclose]
  refine ⟨⟨first, ?_, hstart⟩, ⟨us.length + before.length, bracket, by omega, ?_, ?_, hkind, hstop⟩,
    ⟨c, ?_, hs.closing, hs.close_eq⟩, ?_, ?_, ?_⟩
  · obtain ⟨op', rfl⟩ := List.head?_eq_some_iff.1 hfirst
    exact getElem?_length_of_eq he
  · rw [hop, List.length_append, List.length_singleton]
    omega
  · rw [← List.length_append]
    exact getElem?_length_of_eq hbracket
  · rw [← List.length_append, ← List.length_append]
    exact getElem?_length_of_eq hclose
  · refine hs.opens.start_lt (ho.of_infix ⟨us, I ++ c :: rest, ?_⟩)
    rw [he, List.append_assoc]
  · rw [← hstop, ← hs.close_eq]
    have hsplit : tokens = (us ++ before ++ [bracket]) ++ (I ++ c :: rest) := by
      rw [hbracket, List.append_assoc _ [bracket], List.singleton_append]
    exact ho.stop_le_start hsplit (by simp) (by simp)
  · have hlt := ho.start_lt c hmem
    have hle := ho.stop_le c hmem
    rw [← hs.close_eq]
    omega

end

/-- A literal that the tokens of an expression start with stands among the tokens of the source
where the expression stands, and ends within it. -/
theorem InOrder.literalAt_of_read? {source : Text} {tokens : List Token}
    (ho : InOrder source tokens) {e : Expression} {first last : Nat}
    (he : Occupies tokens e.tokens first last) {n : ArrayLiteral} {left : List Token}
    (h : ArrayLiteral.read? e.tokens = .ok (some (n, left))) : ∃ close,
      LiteralAt source tokens n first close ∧
        left ++ tokens.drop (last + 1) = tokens.drop (close + 1) ∧ close ≤ last ∧
        n.start = e.start ∧ n.close < e.stop := by
  obtain ⟨op, I, c, hsplit, hspans⟩ := read?_eq_some_iff.1 h
  obtain ⟨-, us, vs, htokens, rfl, hlength⟩ := occupies_iff.1 he
  have hvs : tokens.drop (last + 1) = vs := by
    rw [← hlength, ← List.length_append, htokens, ← List.append_assoc, List.drop_left]
  have hplace : tokens = us ++ (op ++ (I ++ c :: (left ++ vs))) := by
    simp only [htokens, hsplit, List.append_assoc, List.cons_append]
  have horder : InOrder source e.tokens :=
    ho.of_infix ⟨us, vs, by rw [htokens, List.append_assoc]⟩
  refine ⟨_, hspans.literalAt ho hplace, ?_, ?_, ?_, ?_⟩
  · have hbefore : tokens = (us ++ op ++ I ++ [c]) ++ (left ++ vs) := by
      simp only [hplace, List.append_assoc, List.singleton_append]
    have hcount : us.length + op.length + I.length + 1 = (us ++ op ++ I ++ [c]).length := by
      simp only [List.length_append, List.length_singleton]
    rw [hvs, hcount, hbefore, List.drop_left]
  · simp only [hsplit, List.length_append, List.length_cons] at hlength
    omega
  · obtain ⟨t, ht, hstart⟩ := hspans.opens.exists_head
    obtain ⟨op, rfl⟩ := List.head?_eq_some_iff.1 ht
    simp only [← hstart, Expression.start, hsplit, List.cons_append, List.head_cons]
  · have hmem : c ∈ e.tokens := by simp [hsplit]
    have hlt := horder.start_lt c hmem
    have hle := (horder.expression_bounds c hmem).2
    rw [← hspans.close_eq]
    omega

/-! ### An item and the tokens around it -/

/-- The item is one of the literal, and its value stands among the tokens of the source: behind the
tokens `opened` up to the opening bracket, those of the items before it and those of its key, and
before the tokens of the items after it and the closing bracket `c`. -/
structure ItemAmong (tokens : List Token) (l : ArrayLiteral) (item : Item)
    (opened before head after : List Token) (c : Token) (rest : List Token) : Prop where
  eq : tokens = (opened ++ before) ++ (head ++ (item.value.tokens ++ (after ++ c :: rest)))
  bracket : ∃ t ∈ opened, t.stop = l.openStop
  balanced : Balanced item.value.tokens
  key : KeyTokens item.key head
  comma : CommaTokens item.comma after
  closing : c.kind = .closing l.style.bracket
  close_eq : c.start = l.close

/-- An item of a literal stands among the tokens of the whole, between those before and those
after. -/
theorem Spans.exists_itemAmong {op I : List Token} {c : Token} {l : ArrayLiteral}
    (hs : Spans op I c l) {item : Item} (hi : item ∈ l.items) (us rest : List Token) :
    ∃ before head after,
      ItemAmong (us ++ (op ++ (I ++ c :: rest))) l item (us ++ op) before head after c rest ∧
      I.length =
        before.length + (head.length + (item.value.tokens.length + after.length)) := by
  obtain ⟨before, head, after, rfl, hbalanced, hkey, hcomma⟩ := hs.listing.exists_tokens hi
  obtain ⟨us', bracket, hop, hstop, -⟩ := hs.opens.exists_stop_eq
  refine ⟨before, head, after, ⟨by simp only [List.append_assoc], ⟨bracket, ?_, hstop⟩, hbalanced,
    hkey, hcomma, hs.closing, hs.close_eq⟩, by simp only [List.length_append]⟩
  rw [hop]
  simp

namespace ItemAmong

variable {source : Text} {tokens opened before head after rest : List Token} {c : Token}
  {l : ArrayLiteral} {item : Item} {first last valueFirst valueLast : Nat}

/-- Where the value stands. -/
theorem value_eq (h : ItemAmong tokens l item opened before head after c rest) :
    tokens = (opened ++ before ++ head) ++ (item.value.tokens ++ (after ++ c :: rest)) := by
  simp only [h.eq, List.append_assoc]

/-- The value of an item occupies a range of indexes. -/
theorem exists_range (h : ItemAmong tokens l item opened before head after c rest) :
    ∃ valueLast, Occupies tokens item.value.tokens (opened ++ before ++ head).length valueLast := by
  have hpos := List.length_pos_iff.2 item.value.nonempty
  refine ⟨(opened ++ before ++ head).length + item.value.tokens.length - 1, ?_⟩
  exact occupies_iff.2 ⟨item.value.nonempty, _, _, h.value_eq, rfl, by omega⟩

/-- An item starts with a token of its key or of its value. -/
theorem exists_start (h : ItemAmong tokens l item opened before head after c rest) :
    ∃ t ∈ head ++ item.value.tokens, t.start = item.start := by
  have hkey := h.key
  unfold Item.start
  generalize item.key = key at hkey
  cases hkey with
  | none => exact ⟨_, List.head_mem item.value.nonempty, rfl⟩
  | @some key arrow ha =>
    refine ⟨key.tokens.head key.nonempty, List.mem_append_left _ ?_, rfl⟩
    exact List.mem_append_left _ (List.head_mem key.nonempty)

/-- Behind a value stands a comma or the closing bracket. -/
theorem behind_ne (h : ItemAmong tokens l item opened before head after c rest) :
    ∀ t ∈ (after ++ c :: rest).head?, t.kind ≠ .opening .round := by
  have hcomma := h.comma
  generalize item.comma = comma at hcomma
  rintro t ht
  cases hcomma with
  | none =>
    obtain rfl := Option.some.inj ht
    rw [h.closing]
    nofun
  | some hc =>
    obtain rfl := Option.some.inj ht
    rw [hc]
    nofun

section
variable (ho : InOrder source tokens) (h : ItemAmong tokens l item opened before head after c rest)
  (hvalue : Occupies tokens item.value.tokens valueFirst valueLast)
include ho h hvalue

/-- The first index of a value, counted from the parts before it. -/
theorem valueFirst_eq : valueFirst = opened.length + before.length + head.length := by
  obtain ⟨last', hrange⟩ := h.exists_range
  rw [(ho.occupies_unique hrange hvalue).1, List.length_append, List.length_append]

/-- What a value starts with is read within it. -/
theorem nestedAt (hi : ItemAt tokens l first last item valueFirst valueLast) :
    NestedAt source tokens l item valueFirst valueLast := by
  have hfirst : tokens.drop valueFirst = item.value.tokens ++ (after ++ c :: rest) := by
    rw [h.valueFirst_eq ho hvalue, ← List.length_append, ← List.length_append, h.value_eq,
      List.drop_left]
  have hbehind : tokens.drop (valueLast + 1) = after ++ c :: rest := by
    rw [← hvalue.length_eq, ← List.drop_drop, hfirst, List.drop_left]
  obtain ⟨halone, hfault⟩ := read?_within h.balanced h.behind_ne
  rw [← hfirst, ← hbehind] at halone
  refine ⟨halone, fun found hfound => ?_, fun n later hread => ?_⟩
  · rw [halone] at hfound
    cases hread : ArrayLiteral.read? item.value.tokens with
    | ok result => rw [hread] at hfound; cases hfound
    | error found' =>
      rw [hread] at hfound
      cases hfound
      exact hfault _ hread
  · rw [halone] at hread
    obtain ⟨found, hfound, hmap⟩ := map_eq_ok_iff.1 hread
    obtain ⟨⟨n, left⟩, rfl, hpair⟩ := Option.map_eq_some_iff.1 hmap
    cases hpair
    obtain ⟨close, hat, hrest, hle, hstart, hclose⟩ := ho.literalAt_of_read? hvalue hfound
    refine ⟨close, hat, hrest, hle, hstart, hclose, ?_, Nat.lt_of_lt_of_le hclose hi.stop_le⟩
    rw [hstart]
    exact hi.openStop_le.trans hi.start_le

/-- The key of an item among the tokens. -/
theorem keyAt (hfirst : first < opened.length) {key : Expression} (hkey : key ∈ item.key) :
    KeyAt tokens item key first valueFirst := by
  have hvalueFirst := h.valueFirst_eq ho hvalue
  have heq := h.eq
  obtain ⟨arrow, rfl⟩ : ∃ arrow, head = key.tokens ++ [arrow] := by
    have hk := h.key
    rw [Option.mem_def.1 hkey] at hk
    cases hk
    exact ⟨_, rfl⟩
  have hstart : key.start = item.start := by
    rw [Item.start, Option.mem_def.1 hkey, Option.getD_some]
  have horder : InOrder source key.tokens :=
    ho.of_infix ⟨opened ++ before, [arrow] ++ (item.value.tokens ++ (after ++ c :: rest)),
      by simp only [heq, List.append_assoc]⟩
  have hpos := List.length_pos_iff.2 key.nonempty
  rw [List.length_append, List.length_singleton] at hvalueFirst
  refine ⟨⟨(opened ++ before).length, (opened ++ before).length + key.tokens.length - 1, ?_, ?_,
    ?_⟩, hstart, horder.start_lt_stop, ?_⟩
  · refine occupies_iff.2 ⟨key.nonempty, opened ++ before,
      [arrow] ++ (item.value.tokens ++ (after ++ c :: rest)), ?_, rfl, by omega⟩
    simp only [heq, List.append_assoc]
  · rw [List.length_append]
    omega
  · rw [List.length_append]
    omega
  · exact ho.stop_le_start h.value_eq
      (List.mem_append_right _ (List.mem_append_left _ (List.getLast_mem key.nonempty)))
      (List.mem_append_left _ (List.head_mem item.value.nonempty))

/-- The comma behind an item among the tokens. -/
theorem commaAt (hlast : last = opened.length +
      (before.length + (head.length + (item.value.tokens.length + after.length))))
    {place : Nat} (hplace : place ∈ item.comma) :
    CommaAt tokens item place valueLast last ∧ place < l.close := by
  have hvalueFirst := h.valueFirst_eq ho hvalue
  have hlength := hvalue.length_eq
  obtain ⟨comma, later, rfl, hkind, rfl⟩ :
      ∃ comma later, after = comma :: later ∧ comma.kind = .comma ∧ comma.start = place := by
    have hc := h.comma
    rw [Option.mem_def.1 hplace] at hc
    cases hc with
    | some hc => exact ⟨_, _, rfl, hc, rfl⟩
  have heq : tokens = (opened ++ before ++ head ++ item.value.tokens) ++
      comma :: (later ++ c :: rest) := by
    rw [h.value_eq, List.append_assoc _ item.value.tokens, List.cons_append]
  refine ⟨⟨⟨comma, ?_, hkind, rfl⟩, ?_, ?_⟩, ?_⟩
  · have hindex : valueLast + 1 = (opened ++ before ++ head ++ item.value.tokens).length := by
      simp only [List.length_append]
      omega
    rw [hindex, getElem?_length_of_eq heq]
  · rw [List.length_cons] at hlast
    omega
  · exact ho.stop_le_start heq (List.mem_append_right _ (List.getLast_mem item.value.nonempty))
      List.mem_cons_self
  · have hsplit : tokens =
        (opened ++ before ++ head ++ item.value.tokens ++ comma :: later) ++ c :: rest := by
      rw [heq, List.append_assoc _ (comma :: later), List.cons_append]
    have hlt := ho.start_lt comma (by simp [heq])
    have hle : comma.stop ≤ c.start := ho.stop_le_start hsplit (by simp) List.mem_cons_self
    rw [← h.close_eq]
    omega

/-- The item among the tokens. -/
theorem itemAt (hfirst : first < opened.length) (hlast : last = opened.length +
      (before.length + (head.length + (item.value.tokens.length + after.length)))) :
    ItemAt tokens l first last item valueFirst valueLast := by
  have hvalueFirst := h.valueFirst_eq ho hvalue
  have hlength := hvalue.length_eq
  have hpos := List.length_pos_iff.2 item.value.nonempty
  have horder : InOrder source item.value.tokens :=
    ho.of_infix ⟨_, _, by rw [h.value_eq, List.append_assoc]⟩
  obtain ⟨u, hu, hstart⟩ := h.exists_start
  obtain ⟨bracket, hbracket, hstop⟩ := h.bracket
  refine ⟨by omega, by omega, ?_, ?_, horder.start_lt_stop, ?_,
    fun key hkey => h.keyAt ho hvalue hfirst hkey, fun place => h.commaAt ho hvalue hlast⟩
  · rw [← hstop, ← hstart]
    have hsplit : tokens =
        opened ++ (before ++ ((head ++ item.value.tokens) ++ (after ++ c :: rest))) := by
      simp only [h.eq, List.append_assoc]
    exact ho.stop_le_start hsplit hbracket
      (List.mem_append_right _ (List.mem_append_left _ hu))
  · cases hkey : item.key with
    | none => rw [Item.start, hkey, Option.getD_none]
    | some key =>
      have hat := h.keyAt ho hvalue hfirst hkey
      rw [← hat.start_eq]
      exact hat.start_lt.le.trans hat.stop_le
  · rw [← h.close_eq]
    have hsplit : tokens =
        (opened ++ before ++ head ++ item.value.tokens) ++ (after ++ c :: rest) := by
      rw [h.value_eq, List.append_assoc _ item.value.tokens]
    exact ho.stop_le_start hsplit
      (List.mem_append_right _ (List.getLast_mem item.value.nonempty)) (by simp)

end

end ItemAmong

/-- A literal and its items among the tokens of a source: the literal has the indexes from `first`
to `last`, and each value has indexes between these. -/
structure RowsAt (source : Text) (tokens : List Token) (l : ArrayLiteral) (first last : Nat) :
    Prop where
  literal : LiteralAt source tokens l first last
  exists_value : ∀ item ∈ l.items, ∃ valueFirst valueLast,
    Occupies tokens item.value.tokens valueFirst valueLast
  item : ∀ item ∈ l.items, ∀ valueFirst valueLast,
    Occupies tokens item.value.tokens valueFirst valueLast →
      ItemAt tokens l first last item valueFirst valueLast
  nested : ∀ item ∈ l.items, ∀ valueFirst valueLast,
    Occupies tokens item.value.tokens valueFirst valueLast →
      NestedAt source tokens l item valueFirst valueLast

/-- **A literal and its items by their indexes.** -/
theorem Spans.rowsAt {source : Text} {tokens us op I rest : List Token} {c : Token}
    {l : ArrayLiteral} (ho : InOrder source tokens)
    (he : tokens = us ++ (op ++ (I ++ c :: rest))) (hs : Spans op I c l) :
    RowsAt source tokens l us.length (us.length + op.length + I.length) := by
  have hpos : 0 < op.length := by
    obtain ⟨us', bracket, rfl, -⟩ := hs.opens.exists_stop_eq
    simp
  have hamong : ∀ item ∈ l.items, ∃ before head after,
      ItemAmong tokens l item (us ++ op) before head after c rest ∧ I.length =
        before.length + (head.length + (item.value.tokens.length + after.length)) := by
    intro item hi
    rw [he]
    exact hs.exists_itemAmong hi us rest
  have hitem : ∀ item ∈ l.items, ∀ valueFirst valueLast,
      Occupies tokens item.value.tokens valueFirst valueLast →
        ItemAt tokens l us.length (us.length + op.length + I.length) item valueFirst
          valueLast := by
    intro item hi valueFirst valueLast hvalue
    obtain ⟨before, head, after, h, hlength⟩ := hamong item hi
    refine h.itemAt ho hvalue ?_ ?_
    · rw [List.length_append]
      omega
    · rw [List.length_append, hlength]
  refine ⟨hs.literalAt ho he, fun item hi => ?_, hitem, fun item hi vFirst vLast hvalue => ?_⟩
  · obtain ⟨before, head, after, h, -⟩ := hamong item hi
    exact ⟨_, h.exists_range⟩
  · obtain ⟨before, head, after, h, -⟩ := hamong item hi
    exact h.nestedAt ho hvalue (hitem item hi vFirst vLast hvalue)

end Script
end Scaffold

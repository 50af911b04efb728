/-
# What stands between the brackets of an array literal

`Listing ts items` says, rule by rule, which tokens list which items: elements separated by commas,
with a comma after the last one or not; an element is an expression or `key => value`; in an
expression the brackets match, and separators stand inside brackets only. `readItems` finds the
items that the tokens list, and finds them whenever there are some (`readItems_ok_iff`).
-/

import Scaffold.Script.ArrayLiteral

namespace Scaffold
namespace Script

/-! ### Brackets -/

/-- The brackets that are open after one more token, the innermost first. An expression ends at a
tag, at a bracket that closes another than the innermost one, and at a separator outside all
brackets. -/
def openStep (opened : List Bracket) (kind : TokenKind) : Option (List Bracket) :=
  match kind, opened with
  | .openTag, _ | .closeTag, _ => none
  | .opening shape, opened => some (shape :: opened)
  | .closing shape, innermost :: others => if shape = innermost then some others else none
  | .closing _, [] | .comma, [] | .doubleArrow, [] | .semicolon, [] => none
  | _, opened => some opened

/-- The brackets that are open after some tokens of an expression. -/
def openAfter (opened : List Bracket) (ts : List Token) : Option (List Bracket) :=
  ts.foldlM (fun opened token => openStep opened token.kind) opened

/-- The tokens of an expression. -/
def Balanced (ts : List Token) : Prop := ts ≠ [] ∧ openAfter [] ts = some []

/-- The brackets that are open after one token of an expression and others. -/
theorem openAfter_cons (opened : List Bracket) (token : Token) (ts : List Token) :
    openAfter opened (token :: ts) =
      (openStep opened token.kind).bind (openAfter · ts) := rfl

/-- The brackets that are open after some tokens of an expression and others. -/
theorem openAfter_append (opened : List Bracket) (ts us : List Token) :
    openAfter opened (ts ++ us) = (openAfter opened ts).bind (openAfter · us) :=
  List.foldlM_append ..

/-- The open brackets depend on the kinds of the tokens alone. -/
theorem openAfter_map (f : Token → Token) (hf : ∀ token, (f token).kind = token.kind)
    (opened : List Bracket) (ts : List Token) :
    openAfter opened (ts.map f) = openAfter opened ts := by
  simp only [openAfter, List.foldlM_map, hf]

/-- One more token does the same within outer brackets. -/
theorem openStep_weaken {opened opened' : List Bracket} {kind : TokenKind}
    (h : openStep opened kind = some opened') (outer : List Bracket) :
    openStep (opened ++ outer) kind = some (opened' ++ outer) := by
  cases opened with
  | nil => cases kind <;> cases h <;> cases outer <;> rfl
  | cons innermost others =>
    cases kind with
    | closing shape =>
      simp only [openStep, List.cons_append] at h ⊢
      split at h
      · rename_i hs
        cases h
        rw [if_pos hs]
      · cases h
    | _ => cases h <;> rfl

/-- More open brackets around an expression forbid nothing in it. -/
theorem openAfter_weaken {opened opened' : List Bracket} {ts : List Token}
    (h : openAfter opened ts = some opened') (outer : List Bracket) :
    openAfter (opened ++ outer) ts = some (opened' ++ outer) := by
  induction ts generalizing opened with
  | nil =>
    cases h
    rfl
  | cons token ts ih =>
    rw [openAfter_cons] at h ⊢
    obtain ⟨next, hn, ht⟩ := Option.bind_eq_some_iff.1 h
    rw [openStep_weaken hn, Option.bind_some, ih ht]

/-- The tokens of an expression leave the open brackets as they are. -/
theorem Balanced.openAfter {ts : List Token} (h : Balanced ts) (opened : List Bracket) :
    openAfter opened ts = some opened := openAfter_weaken h.2 opened

/-! ### Elements and their commas -/

/-- The tokens of one element, its key and its value. -/
inductive Element : List Token → Option Expression → Expression → Prop
  | bare {value : Expression} (hv : Balanced value.tokens) : Element value.tokens none value
  | keyed {key value : Expression} {arrow : Token} (hk : Balanced key.tokens)
      (ha : arrow.kind = .doubleArrow) (hv : Balanced value.tokens) :
      Element (key.tokens ++ arrow :: value.tokens) (some key) value

/-- The tokens that list some items. -/
inductive Listing : List Token → List Item → Prop
  | nil : Listing [] []
  | last {ts : List Token} {key : Option Expression} {value : Expression}
      (h : Element ts key value) : Listing ts [⟨key, value, none⟩]
  | cons {ts rest : List Token} {key : Option Expression} {value : Expression} {comma : Token}
      {items : List Item} (h : Element ts key value) (hc : comma.kind = .comma)
      (later : Listing rest items) :
      Listing (ts ++ comma :: rest) (⟨key, value, some comma.start⟩ :: items)

/-- The tokens of an item leave the open brackets as they are. -/
theorem Element.openAfter {ts : List Token} {key : Option Expression} {value : Expression}
    (h : Element ts key value) (shape : Bracket) (opened : List Bracket) :
    openAfter (shape :: opened) ts = some (shape :: opened) := by
  cases h with
  | bare hv => exact hv.openAfter _
  | keyed hk ha hv =>
    rw [openAfter_append, hk.openAfter, Option.bind_some, openAfter_cons, ha]
    exact hv.openAfter _

/-- Within brackets a listing is part of an expression. -/
theorem Listing.openAfter {ts : List Token} {items : List Item} (h : Listing ts items)
    (shape : Bracket) (opened : List Bracket) :
    openAfter (shape :: opened) ts = some (shape :: opened) := by
  induction h with
  | nil => rfl
  | last h => exact h.openAfter shape opened
  | cons h hc _ ih =>
    rw [openAfter_append, h.openAfter, Option.bind_some, openAfter_cons, hc]
    exact ih

/-! ### Partial items -/

namespace PartialItem

/-- The item of which some tokens have been read, the newest first, and no arrow. -/
def ofReversed : List Token → PartialItem
  | [] => .nothing
  | last :: before => .bare last before

/-- Some more tokens of the item. -/
def pushAll (ts : List Token) (item : PartialItem) : PartialItem :=
  ts.foldl (fun item token => item.push token) item

/-- An expression whose tokens are collected in reverse grows by one at its head. -/
theorem push_ofReversed (token : Token) (ts : List Token) :
    (ofReversed ts).push token = ofReversed (token :: ts) := by
  cases ts <;> rfl

/-- An expression whose tokens are collected in reverse grows by several. -/
theorem pushAll_ofReversed (ts before : List Token) :
    (ofReversed before).pushAll ts = ofReversed (ts.reverse ++ before) := by
  induction ts generalizing before with
  | nil => rfl
  | cons token ts ih =>
    rw [List.reverse_cons, List.append_assoc, List.singleton_append, ← ih, ← push_ofReversed]
    rfl

/-- Behind an arrow, tokens go to the value. -/
theorem pushAll_keyed (key : Expression) (arrow : Token) (ts value : List Token) :
    (keyed key arrow value).pushAll ts = .keyed key arrow (ts.reverse ++ value) := by
  induction ts generalizing value with
  | nil => rfl
  | cons token ts ih =>
    rw [List.reverse_cons, List.append_assoc, List.singleton_append, ← ih]
    rfl

/-- The tokens of an expression, from the last to the first. -/
theorem exists_reverse_tokens (e : Expression) :
    ∃ last before, e.tokens.reverse = last :: before ∧ Expression.ofReversed last before = e := by
  obtain ⟨last, before, h⟩ := List.exists_cons_of_ne_nil (l := e.tokens.reverse) (by
    rw [Ne, List.reverse_eq_nil_iff]
    exact e.nonempty)
  refine ⟨last, before, h, ?_⟩
  obtain ⟨tokens, hne⟩ := e
  simp only [Expression.ofReversed, Expression.mk.injEq]
  rw [← h, List.reverse_reverse]

/-- An item without an arrow is its value. -/
theorem finish_pushAll (e : Expression) (comma : Option Nat) :
    (nothing.pushAll e.tokens).finish comma = .ok (some ⟨none, e, comma⟩) := by
  obtain ⟨last, before, h, he⟩ := exists_reverse_tokens e
  rw [show nothing = ofReversed [] from rfl, pushAll_ofReversed, List.append_nil, h, ← he]
  rfl

/-- The tokens before an arrow are the key. -/
theorem arrow_pushAll (e : Expression) (token : Token) :
    (nothing.pushAll e.tokens).arrow token = .ok (.keyed e token []) := by
  obtain ⟨last, before, h, he⟩ := exists_reverse_tokens e
  rw [show nothing = ofReversed [] from rfl, pushAll_ofReversed, List.append_nil, h, ← he]
  rfl

/-- An item with an arrow is its key and its value. -/
theorem finish_keyed_pushAll (key : Expression) (arrow : Token) (e : Expression)
    (comma : Option Nat) :
    ((keyed key arrow []).pushAll e.tokens).finish comma = .ok (some ⟨some key, e, comma⟩) := by
  obtain ⟨last, before, h, he⟩ := exists_reverse_tokens e
  rw [pushAll_keyed, List.append_nil, h, ← he]
  rfl

end PartialItem

/-! ### Reading items -/

section
variable {outer : Bracket} {opened : Nat}

/-- A token that belongs to the item is put to it, and reading goes on. -/
theorem readItems_cons {inner inner' : List Bracket} {token : Token}
    (h : openStep inner token.kind = some inner') (item : PartialItem) (ts : List Token) :
    readItems outer opened inner item (token :: ts) =
      readItems outer opened inner' (item.push token) ts := by
  rw [readItems.eq_def outer opened inner item (token :: ts)]
  simp only
  generalize token.kind = kind at h ⊢
  cases inner with
  | nil => cases kind <;> cases h <;> rfl
  | cons innermost others =>
    cases kind with
    | closing shape =>
      simp only [openStep] at h ⊢
      split at h
      · rename_i hs
        cases h
        rw [if_pos hs]
      · cases h
    | _ => cases h <;> rfl

/-- Tokens of an expression are put into the item. -/
theorem readItems_append {inner inner' : List Bracket} {E : List Token}
    (h : openAfter inner E = some inner') (item : PartialItem) (ts : List Token) :
    readItems outer opened inner item (E ++ ts) =
      readItems outer opened inner' (item.pushAll E) ts := by
  induction E generalizing inner item with
  | nil =>
    cases h
    rfl
  | cons token E ih =>
    rw [openAfter_cons] at h
    obtain ⟨next, hn, hE⟩ := Option.bind_eq_some_iff.1 h
    rw [List.cons_append, readItems_cons hn, ih hE]
    rfl

/-- The separator after an element ends the item that the element stands for. -/
theorem Element.readItems {ts : List Token} {key : Option Expression} {value : Expression}
    (h : Element ts key value) (outer : Bracket) (opened : Nat) : ∃ item : PartialItem,
      (∀ comma, item.finish comma = .ok (some ⟨key, value, comma⟩)) ∧
      ∀ rest, Script.readItems outer opened [] .nothing (ts ++ rest) =
        Script.readItems outer opened [] item rest := by
  cases h with
  | bare hv =>
    exact ⟨_, PartialItem.finish_pushAll value, readItems_append hv.2 _⟩
  | @keyed key value arrow hk ha hv =>
    refine ⟨_, PartialItem.finish_keyed_pushAll key arrow value, fun rest => ?_⟩
    rw [List.append_assoc, readItems_append hk.2, List.cons_append, ← readItems_append hv.2]
    simp only [Script.readItems.eq_def _ _ _ _ (arrow :: _), ha, PartialItem.arrow_pushAll]

/-- What is listed is read. -/
theorem Listing.readItems {ts : List Token} {items : List Item} (h : Listing ts items)
    {close : Token} (hc : close.kind = .closing outer) (rest : List Token) :
    Script.readItems outer opened [] .nothing (ts ++ close :: rest) =
      .ok (items, close.start, rest) := by
  induction h with
  | nil =>
    simp [Script.readItems.eq_def _ _ _ _ (close :: _), hc, PartialItem.finish]
  | last h =>
    obtain ⟨item, hitem, hread⟩ := h.readItems outer opened
    rw [hread]
    simp [Script.readItems.eq_def _ _ _ _ (close :: _), hc, hitem]
  | @cons ts later key value comma items h hcomma _ ih =>
    obtain ⟨item, hitem, hread⟩ := h.readItems outer opened
    rw [List.append_assoc, hread, List.cons_append]
    simp only [Script.readItems.eq_def _ _ _ _ (comma :: _), hcomma, hitem, ih]
    rfl

/-- The tokens of which an item has been begun, and the brackets that they leave open. -/
inductive Begun : PartialItem → List Token → List Bracket → Prop
  | bare {ts : List Token} {inner : List Bracket} (h : openAfter [] ts.reverse = some inner) :
      Begun (.ofReversed ts) ts.reverse inner
  | keyed {key : Expression} {arrow : Token} {ts : List Token} {inner : List Bracket}
      (hk : Balanced key.tokens) (ha : arrow.kind = .doubleArrow)
      (h : openAfter [] ts.reverse = some inner) :
      Begun (.keyed key arrow ts) (key.tokens ++ arrow :: ts.reverse) inner

/-- An item without tokens has begun. -/
theorem Begun.nothing : Begun .nothing [] [] := @Begun.bare [] [] rfl

/-- An item that has begun goes on with one more token. -/
theorem Begun.push {item : PartialItem} {E : List Token} {inner inner' : List Bracket}
    {token : Token} (h : Begun item E inner) (hs : openStep inner token.kind = some inner') :
    Begun (item.push token) (E ++ [token]) inner' := by
  have hopen : ∀ {ts : List Token}, openAfter [] ts.reverse = some inner →
      openAfter [] (token :: ts).reverse = some inner' := by
    intro ts ht
    rw [List.reverse_cons, openAfter_append, ht, Option.bind_some, openAfter_cons, hs]
    rfl
  cases h with
  | bare h =>
    rw [PartialItem.push_ofReversed, ← List.reverse_cons]
    exact .bare (hopen h)
  | keyed hk ha h =>
    rw [List.append_assoc, List.cons_append, ← List.reverse_cons]
    exact .keyed hk ha (hopen h)

/-- An item that ends has been begun with the tokens of an element, or not at all. -/
theorem Begun.finish {item : PartialItem} {E : List Token} {comma : Option Nat} {done : Option Item}
    (h : Begun item E []) (hf : item.finish comma = .ok done) :
    done = none ∧ E = [] ∨ ∃ key value, done = some ⟨key, value, comma⟩ ∧ Element E key value := by
  cases h with
  | @bare ts _ h =>
    cases ts with
    | nil =>
      cases hf
      exact Or.inl ⟨rfl, rfl⟩
    | cons last before =>
      cases hf
      have hv : Balanced (Expression.ofReversed last before).tokens := ⟨Expression.nonempty _, h⟩
      exact Or.inr ⟨none, .ofReversed last before, rfl, .bare hv⟩
  | @keyed key arrow ts _ hk ha h =>
    cases ts with
    | nil => cases hf
    | cons last before =>
      cases hf
      have hv : Balanced (Expression.ofReversed last before).tokens := ⟨Expression.nonempty _, h⟩
      exact Or.inr ⟨some key, .ofReversed last before, rfl, .keyed hk ha hv⟩

/-- An arrow ends the key of the item. -/
theorem Begun.arrow {item item' : PartialItem} {E : List Token} {token : Token}
    (h : Begun item E []) (hk : token.kind = .doubleArrow) (ha : item.arrow token = .ok item') :
    Begun item' (E ++ [token]) [] := by
  cases h with
  | @bare ts _ h =>
    cases ts with
    | nil => cases ha
    | cons last before =>
      cases ha
      have hkey : Balanced (Expression.ofReversed last before).tokens :=
        ⟨Expression.nonempty _, h⟩
      exact @Begun.keyed _ _ [] [] hkey hk rfl
  | keyed => cases ha

/-- What a token does that no expression goes on with: outside the brackets of the item, the
bracket of the literal ends the items, a comma ends the item, and an arrow ends its key. -/
inductive Separated (outer : Bracket) (opened : Nat) (item : PartialItem) (token : Token)
    (ts : List Token) : List Item → Nat → List Token → Prop
  | closing {done : Option Item} (kind : token.kind = .closing outer)
      (finish : item.finish none = .ok done) :
      Separated outer opened item token ts done.toList token.start ts
  | comma {done : Item} {later : List Item} {close : Nat} {rest : List Token}
      (kind : token.kind = .comma) (finish : item.finish (some token.start) = .ok (some done))
      (read : readItems outer opened [] .nothing ts = .ok (later, close, rest)) :
      Separated outer opened item token ts (done :: later) close rest
  | arrow {keyed : PartialItem} {items : List Item} {close : Nat} {rest : List Token}
      (kind : token.kind = .doubleArrow) (arrow : item.arrow token = .ok keyed)
      (read : readItems outer opened [] keyed ts = .ok (items, close, rest)) :
      Separated outer opened item token ts items close rest

/-- A token that cannot belong to the item ends it, outside all inner brackets. -/
theorem readItems_separated {item : PartialItem} {token : Token} {ts : List Token}
    {inner : List Bracket} (hs : openStep inner token.kind = none) {items : List Item} {close : Nat}
    {rest : List Token}
    (hr : readItems outer opened inner item (token :: ts) = .ok (items, close, rest)) :
    inner = [] ∧ Separated outer opened item token ts items close rest := by
  rw [readItems.eq_def] at hr
  simp only at hr
  generalize hk : token.kind = kind at hs hr
  cases inner with
  | cons innermost others =>
    cases kind with
    | openTag | closeTag => cases hr
    | closing shape =>
      simp only [openStep] at hs hr
      split at hs
      · cases hs
      · rename_i hne
        rw [if_neg hne] at hr
        cases hr
    | _ => cases hs
  | nil =>
    refine ⟨rfl, ?_⟩
    cases kind with
    | openTag | closeTag | semicolon => cases hr
    | closing shape =>
      simp only at hr
      split at hr
      · rename_i hshape
        split at hr
        · cases hr
        · rename_i done hf
          cases hr
          exact .closing (by rw [hk, hshape]) hf
      · cases hr
    | comma =>
      simp only at hr
      split at hr
      · cases hr
      · cases hr
      · rename_i done hf
        obtain ⟨⟨later, close', rest'⟩, hlater, he⟩ := map_eq_ok_iff.1 hr
        cases he
        exact .comma hk hf hlater
    | doubleArrow =>
      simp only at hr
      split at hr
      · cases hr
      · rename_i ha
        exact .arrow hk ha hr
    | _ => cases hs

/-- What is read is listed. -/
theorem Begun.listing {item : PartialItem} {E ts : List Token} {inner : List Bracket}
    (h : Begun item E inner) {items : List Item} {close : Nat} {rest : List Token}
    (hr : Script.readItems outer opened inner item ts = .ok (items, close, rest)) :
    ∃ I c, ts = I ++ c :: rest ∧ c.kind = .closing outer ∧ c.start = close ∧
      Listing (E ++ I) items := by
  induction ts generalizing item E inner items with
  | nil => cases hr
  | cons token ts ih =>
    cases hs : openStep inner token.kind with
    | some inner' =>
      rw [readItems_cons hs] at hr
      obtain ⟨I, c, rfl, hc, hclose, hI⟩ := ih (h.push hs) hr
      refine ⟨token :: I, c, rfl, hc, hclose, ?_⟩
      rwa [List.append_assoc, List.singleton_append] at hI
    | none =>
      obtain ⟨rfl, hseparated⟩ := readItems_separated hs hr
      cases hseparated with
      | closing kind finish =>
        refine ⟨[], token, rfl, kind, rfl, ?_⟩
        rw [List.append_nil]
        rcases h.finish finish with ⟨rfl, rfl⟩ | ⟨key, value, rfl, he⟩
        · exact .nil
        · exact .last he
      | comma kind finish read =>
        obtain ⟨I, c, rfl, hc, hclose, hI⟩ := ih .nothing read
        rcases h.finish finish with ⟨hnone, -⟩ | ⟨key, value, hsome, he⟩
        · cases hnone
        · cases hsome
          exact ⟨token :: I, c, rfl, hc, hclose, .cons he kind hI⟩
      | arrow kind arrow read =>
        obtain ⟨I, c, rfl, hc, hclose, hI⟩ := ih (h.arrow kind arrow) read
        refine ⟨token :: I, c, rfl, hc, hclose, ?_⟩
        rwa [List.append_assoc, List.singleton_append] at hI

/-- **Reading finds the items that the tokens list.** -/
theorem readItems_ok_iff {ts : List Token} {items : List Item} {close : Nat} {rest : List Token} :
    readItems outer opened [] .nothing ts = .ok (items, close, rest) ↔
      ∃ I c, ts = I ++ c :: rest ∧ c.kind = .closing outer ∧ c.start = close ∧ Listing I items := by
  constructor
  · exact fun h => Begun.listing .nothing h
  · rintro ⟨I, c, rfl, hc, rfl, hI⟩
    exact hI.readItems hc rest

end

end Script
end Scaffold

/-
# Values that are arrow functions

An arrow function `fn (…) => …` has an arrow of its own, and more of them may stand in its body. The
items that a writer of elements with such values means are told by `Elements`. Reading splits an
item at its first arrow and takes one arrow in an item (`WrittenElement.read`), so

| the value has | in an element with a key | in an element without one |
| --- | --- | --- |
| no arrow function | read as meant | read as meant |
| one arrow function | an unexpected arrow | its head is read as a key |
| more than one | an unexpected arrow | an unexpected arrow |

Arrow functions inside brackets do not matter. So the items are those that are meant just in case no
value has an arrow function outside its brackets, and then an entry is set among them as in any
other section (`read?_elements_iff`).
-/

import Scaffold.Proofs.Document.Blocked
import Scaffold.Proofs.Literal.Grammar

namespace Scaffold
namespace Script

/-! ### Elements as they are meant -/

/-- Nothing, or one token that satisfies `p`. -/
def Optional (p : Token → Prop) (ts : List Token) : Prop :=
  ts = [] ∨ ∃ token, p token ∧ ts = [token]

/-- The token is the sign `c`. -/
def Token.IsSign (c : Char) (token : Token) : Prop := token.kind = .symbol ∧ token.text = [c]

/-- The type that a function returns, behind a colon, or nothing. -/
def ReturnType (ts : List Token) : Prop :=
  ts = [] ∨ ∃ colon type, colon.IsSign ':' ∧ Balanced type ∧ ts = colon :: type

/-- The head of an arrow function: all that stands before its arrow. -/
inductive FunctionHead : List Token → Prop
  | intro {modifier reference params type : List Token} {word bracket close : Token}
      (static : Optional (·.isWord "static".toList = true) modifier)
      (fn : word.isWord "fn".toList = true) (byReference : Optional (·.IsSign '&') reference)
      (opening : bracket.kind = .opening .round) (nested : Nested params) (tagFree : TagFree params)
      (closing : close.kind = .closing .round) (returns : ReturnType type) :
      FunctionHead (modifier ++ word :: (reference ++ bracket :: (params ++ close :: type)))

/-- The tokens up to the arrow of a function that ends an expression, or is one. -/
def UpToArrow (ts : List Token) : Prop :=
  ∃ before head, (before = [] ∨ Balanced before) ∧ FunctionHead head ∧ ts = before ++ head

/-- The tokens of a value: an expression without an arrow outside its brackets, or one with an arrow
function in it, in whose body there may be others. -/
inductive Valued : List Token → Prop
  | plain {ts : List Token} (balanced : Balanced ts) : Valued ts
  | function {head body : List Token} {arrow : Token} (head_spec : UpToArrow head)
      (kind : arrow.kind = .doubleArrow) (body_spec : Valued body) : Valued (head ++ arrow :: body)

/-- An arrow function stands among the tokens, outside their brackets. -/
def HasArrowFunction (ts : List Token) : Prop :=
  ∃ head arrow body, UpToArrow head ∧ arrow.kind = .doubleArrow ∧ Valued body ∧
    ts = head ++ arrow :: body

/-- The tokens of an element, its key and its value, as they are meant. -/
inductive WrittenElement : List Token → Option Expression → Expression → Prop
  | bare {value : Expression} (hv : Valued value.tokens) : WrittenElement value.tokens none value
  | keyed {key value : Expression} {arrow : Token} (hk : Balanced key.tokens)
      (ha : arrow.kind = .doubleArrow) (hv : Valued value.tokens) :
      WrittenElement (key.tokens ++ arrow :: value.tokens) (some key) value

/-- The tokens of elements with commas between them and the items that are meant. -/
inductive Elements : List Token → List Item → Prop
  | nil : Elements [] []
  | last {ts : List Token} {key : Option Expression} {value : Expression}
      (h : WrittenElement ts key value) : Elements ts [⟨key, value, none⟩]
  | cons {ts rest : List Token} {key : Option Expression} {value : Expression} {comma : Token}
      {items : List Item} (h : WrittenElement ts key value) (hc : comma.kind = .comma)
      (later : Elements rest items) :
      Elements (ts ++ comma :: rest) (⟨key, value, some comma.start⟩ :: items)

/-! ### Heads -/

/-- Between brackets, tokens without tags whose brackets match are part of an expression. -/
theorem Nested.openAfter {ts : List Token} (h : Nested ts) (htags : TagFree ts) (shape : Bracket)
    (opened : List Bracket) : Script.openAfter (shape :: opened) ts = some (shape :: opened) := by
  induction h generalizing shape opened with
  | nil => rfl
  | @plain token ts plain _ ih =>
    obtain ⟨htag, hlater⟩ := List.forall_mem_cons.1 htags
    have hstep : openStep (shape :: opened) token.kind = some (shape :: opened) :=
      openStep_eq_some_iff.2 ⟨stackStep_plain plain _, htag, nofun⟩
    rw [openAfter_cons, hstep, Option.bind_some, ih hlater]
  | @group bracket close inner inside ts opening _ closing _ ihInside ih =>
    rw [TagFree, List.forall_mem_cons, List.forall_mem_append, List.forall_mem_cons] at htags
    obtain ⟨-, hinside, -, hlater⟩ := htags
    have hclose : openStep (inner :: shape :: opened) close.kind = some (shape :: opened) := by
      rw [closing]
      exact if_pos rfl
    rw [openAfter_cons, opening, openStep, Option.bind_some, openAfter_append,
      ihInside hinside, Option.bind_some, openAfter_cons, hclose, Option.bind_some, ih hlater]

/-- What may be there, and opens nothing where it is, opens nothing. -/
theorem Optional.openAfter {p : Token → Prop} {ts : List Token} (h : Optional p ts)
    (hp : ∀ token, p token → openStep [] token.kind = some []) :
    Script.openAfter [] ts = some [] := by
  rcases h with rfl | ⟨token, htoken, rfl⟩
  · rfl
  · rw [openAfter_cons, hp token htoken]
    rfl

/-- A word opens no bracket. -/
theorem openStep_of_isWord {token : Token} {word : Text} (h : token.isWord word = true) :
    openStep [] token.kind = some [] := by
  rw [Token.isWord, Bool.and_eq_true, beq_iff_eq] at h
  rw [h.1]
  rfl

/-- A sign opens no bracket. -/
theorem Token.IsSign.openStep {c : Char} {token : Token} (h : token.IsSign c) :
    Script.openStep [] token.kind = some [] := by
  rw [h.1]
  rfl

/-- The head of an arrow function is an expression to the eyes of a reader of items. -/
theorem FunctionHead.balanced {ts : List Token} (h : FunctionHead ts) : Balanced ts := by
  obtain ⟨static, fn, byReference, opening, nested, tagFree, closing, returns⟩ := h
  refine ⟨by simp, ?_⟩
  have hreturns : ∀ {type : List Token}, ReturnType type → openAfter [] type = some [] := by
    rintro type (rfl | ⟨colon, type, hcolon, htype, rfl⟩)
    · rfl
    · rw [openAfter_cons, hcolon.openStep, Option.bind_some, htype.2]
  rw [openAfter_append, static.openAfter fun _ => openStep_of_isWord, Option.bind_some,
    openAfter_cons, openStep_of_isWord fn, Option.bind_some, openAfter_append,
    byReference.openAfter fun _ => Token.IsSign.openStep, Option.bind_some, openAfter_cons, opening,
    openStep, Option.bind_some, openAfter_append, nested.openAfter tagFree, Option.bind_some,
    openAfter_cons, closing, openStep, if_pos rfl, Option.bind_some, hreturns returns]

/-- The tokens up to the arrow of a function are those of an expression. -/
theorem UpToArrow.balanced {ts : List Token} (h : UpToArrow ts) : Balanced ts := by
  obtain ⟨before, head, rfl | hbefore, hhead, rfl⟩ := h
  · exact hhead.balanced
  · refine ⟨by simp [hbefore.1], ?_⟩
    rw [openAfter_append, hbefore.2, Option.bind_some, hhead.balanced.2]

/-- The head of an arrow function goes up to its arrow. -/
theorem FunctionHead.upToArrow {ts : List Token} (h : FunctionHead ts) : UpToArrow ts :=
  ⟨[], ts, Or.inl rfl, h, rfl⟩

/-- The tokens of an expression have no arrow function outside their brackets. -/
theorem Balanced.not_hasArrowFunction {ts : List Token} (h : Balanced ts) :
    ¬HasArrowFunction ts := by
  rintro ⟨head, arrow, body, hhead, harrow, -, rfl⟩
  have hopen := h.2
  rw [openAfter_append, hhead.balanced.2, Option.bind_some, openAfter_cons, harrow] at hopen
  cases hopen

/-- The tokens of a value are balanced, or they hold an arrow function. -/
theorem Valued.balanced_or {ts : List Token} (h : Valued ts) :
    Balanced ts ∨ HasArrowFunction ts := by
  cases h with
  | plain balanced => exact Or.inl balanced
  | function head_spec kind body_spec => exact Or.inr ⟨_, _, _, head_spec, kind, body_spec, rfl⟩

/-! ### Elements as they are read -/

/-- How an item is read: as it is meant, or, where it has an arrow function and no key, with all up
to the arrow as its key. -/
inductive ReadAs : Item → Item → Prop
  | meant {item : Item} (plain : ¬HasArrowFunction item.value.tokens) : ReadAs item item
  | headAsKey {value head body : Expression} {arrow : Token} {comma : Option Nat}
      (head_spec : UpToArrow head.tokens) (kind : arrow.kind = .doubleArrow)
      (balanced : Balanced body.tokens)
      (tokens_eq : value.tokens = head.tokens ++ arrow :: body.tokens) :
      ReadAs ⟨none, value, comma⟩ ⟨some head, body, comma⟩

/-- The item has more than one arrow outside its brackets: that of its key and that of its value, or
those of two functions in it. -/
def Item.IsCrowded (item : Item) : Prop :=
  (item.key.isSome ∧ HasArrowFunction item.value.tokens) ∨
    ∃ head arrow body, UpToArrow head ∧ arrow.kind = .doubleArrow ∧ HasArrowFunction body ∧
      item.value.tokens = head ++ arrow :: body

section
variable {outer : Bracket} {opened : Nat}

/-- A second arrow in an item is a fault. -/
theorem readItems_second_arrow {first second : List Token} (hfirst : Balanced first)
    (hsecond : Balanced second) {arrow arrow' : Token} (ha : arrow.kind = .doubleArrow)
    (ha' : arrow'.kind = .doubleArrow) (ts : List Token) :
    readItems outer opened [] .nothing (first ++ arrow :: (second ++ arrow' :: ts)) =
      .error ⟨.unexpectedArrow, arrow'.start⟩ := by
  have hkey := PartialItem.arrow_pushAll ⟨first, hfirst.1⟩ arrow
  rw [readItems_append hfirst.2]
  simp only [readItems.eq_def _ _ _ _ (arrow :: _), ha, hkey]
  rw [readItems_append hsecond.2, PartialItem.pushAll_keyed]
  simp only [readItems.eq_def _ _ _ _ (arrow' :: _), ha', PartialItem.arrow]

/-- An element is read as one item, or its second arrow is a fault. -/
theorem WrittenElement.read {ts : List Token} {key : Option Expression} {value : Expression}
    (h : WrittenElement ts key value) (outer : Bracket) (opened : Nat) (comma : Option Nat) :
    (∃ key' value', Element ts key' value' ∧
      ReadAs ⟨key, value, comma⟩ ⟨key', value', comma⟩) ∨
    (⟨key, value, comma⟩ : Item).IsCrowded ∧ ∃ place, ∀ rest,
      readItems outer opened [] .nothing (ts ++ rest) = .error ⟨.unexpectedArrow, place⟩ := by
  cases h with
  | bare hv =>
    rcases hv.balanced_or with hbalanced | ⟨head, arrow, body, hhead, harrow, hbody, htokens⟩
    · exact Or.inl ⟨none, value, .bare hbalanced, .meant hbalanced.not_hasArrowFunction⟩
    rcases hbody.balanced_or with hbalanced | hfunction
    · refine Or.inl ⟨some ⟨head, hhead.balanced.1⟩, ⟨body, hbalanced.1⟩, ?_,
        .headAsKey hhead harrow hbalanced htokens⟩
      rw [htokens]
      exact @Element.keyed ⟨head, hhead.balanced.1⟩ ⟨body, hbalanced.1⟩ arrow hhead.balanced harrow
        hbalanced
    · refine Or.inr ⟨Or.inr ⟨head, arrow, body, hhead, harrow, hfunction, htokens⟩, ?_⟩
      obtain ⟨head', arrow', body', hhead', harrow', -, rfl⟩ := hfunction
      refine ⟨arrow'.start, fun rest => ?_⟩
      rw [htokens, List.append_assoc, List.cons_append, List.append_assoc, List.cons_append]
      exact readItems_second_arrow hhead.balanced hhead'.balanced harrow harrow' _
  | @keyed key value arrow hk ha hv =>
    rcases hv.balanced_or with hbalanced | hfunction
    · exact Or.inl ⟨some key, value, .keyed hk ha hbalanced,
        .meant hbalanced.not_hasArrowFunction⟩
    · refine Or.inr ⟨Or.inl ⟨rfl, hfunction⟩, ?_⟩
      obtain ⟨head, arrow', body, hhead, harrow', -, htokens⟩ := hfunction
      refine ⟨arrow'.start, fun rest => ?_⟩
      rw [htokens, List.append_assoc, List.cons_append, List.append_assoc, List.cons_append]
      exact readItems_second_arrow hk hhead.balanced ha harrow' _

/-- Elements are read as one item each, or a second arrow in one of them is a fault. -/
theorem Elements.read {I : List Token} {items : List Item} (h : Elements I items) (outer : Bracket)
    (opened : Nat) :
    (∃ items', Listing I items' ∧ List.Forall₂ ReadAs items items') ∨
    (∃ item ∈ items, item.IsCrowded) ∧ ∃ place, ∀ rest,
      readItems outer opened [] .nothing (I ++ rest) = .error ⟨.unexpectedArrow, place⟩ := by
  induction h with
  | nil => exact Or.inl ⟨[], .nil, .nil⟩
  | last h =>
    rcases h.read outer opened none with ⟨key', value', helement, hread⟩ | ⟨hcrowded, hfault⟩
    · exact Or.inl ⟨_, .last helement, .cons hread .nil⟩
    · exact Or.inr ⟨⟨_, List.mem_cons_self, hcrowded⟩, hfault⟩
  | @cons ts I key value comma items h hc _ ih =>
    rcases h.read outer opened (some comma.start) with ⟨key', value', helement, hread⟩ |
      ⟨hcrowded, place, hfault⟩
    · rcases ih with ⟨items', hlisting, hitems⟩ | ⟨⟨item, hitem, hcrowded⟩, place, hfault⟩
      · exact Or.inl ⟨_, .cons helement hc hlisting, .cons hread hitems⟩
      · refine Or.inr ⟨⟨item, List.mem_cons_of_mem _ hitem, hcrowded⟩, place, fun rest => ?_⟩
        obtain ⟨begun, hbegun, hreadItems⟩ := helement.readItems outer opened
        rw [List.append_assoc, hreadItems, List.cons_append]
        simp only [readItems.eq_def _ _ _ _ (comma :: _), hc, hbegun, hfault]
        rfl
    · refine Or.inr ⟨⟨_, List.mem_cons_self, hcrowded⟩, place, fun rest => ?_⟩
      rw [List.append_assoc]
      exact hfault _

end

/-- The first arrow outside the brackets is the first one. -/
theorem balanced_append_arrow_inj {us vs us' vs' : List Token} {arrow arrow' : Token}
    (h : us ++ arrow :: vs = us' ++ arrow' :: vs') (hus : Balanced us) (hus' : Balanced us')
    (ha : arrow.kind = .doubleArrow) (ha' : arrow'.kind = .doubleArrow) : vs = vs' := by
  have hlacks := (balanced_iff.1 hus).2.2.2.2.1
  have hlacks' := (balanced_iff.1 hus').2.2.2.2.1
  have hnested := (balanced_iff.1 hus).2.1
  have hnested' := (balanced_iff.1 hus').2.1
  rcases List.append_eq_append_iff.1 h with ⟨ws, rfl, hws⟩ | ⟨ws, rfl, hws⟩
  · cases ws with
    | nil => exact (List.cons.inj hws).2
    | cons w ws =>
      obtain ⟨rfl, -⟩ := List.cons.inj hws
      exact absurd ⟨rfl, hnested, ha⟩ (hlacks' us arrow ws)
  · cases ws with
    | nil => exact (List.cons.inj hws).2.symm
    | cons w ws =>
      obtain ⟨rfl, -⟩ := List.cons.inj hws
      exact absurd ⟨rfl, hnested', ha'⟩ (hlacks us' arrow' ws)

/-- The value of a crowded item holds an arrow function. -/
theorem Item.IsCrowded.hasArrowFunction {item : Item} (h : item.IsCrowded) :
    HasArrowFunction item.value.tokens := by
  rcases h with ⟨-, h⟩ | ⟨head, arrow, body, hhead, harrow, hbody, htokens⟩
  · exact h
  · obtain ⟨head', arrow', body', hhead', harrow', hbody', rfl⟩ := hbody
    exact ⟨head, arrow, _, hhead, harrow, .function hhead' harrow' hbody', htokens⟩

/-- What is read as one item has one arrow outside its brackets at most. -/
theorem ReadAs.not_isCrowded {item item' : Item} (h : ReadAs item item') : ¬item.IsCrowded := by
  intro hcrowded
  cases h with
  | meant plain => exact plain hcrowded.hasArrowFunction
  | @headAsKey value head body arrow comma head_spec kind balanced tokens_eq =>
    rcases hcrowded with ⟨hkey, -⟩ | ⟨head', arrow', body', hhead', harrow', hbody', htokens⟩
    · cases hkey
    · have hsame := balanced_append_arrow_inj (tokens_eq.symm.trans htokens) head_spec.balanced
        hhead'.balanced kind harrow'
      exact balanced.not_hasArrowFunction (hsame ▸ hbody')

/-- An item is read as itself just in case its value holds no arrow function. -/
theorem ReadAs.self_iff {item : Item} : ReadAs item item ↔ ¬HasArrowFunction item.value.tokens := by
  constructor
  · intro h
    cases h with
    | meant plain => exact plain
  · exact .meant

/-- Items that are read as themselves. -/
theorem forall₂_readAs_self_iff {items : List Item} :
    List.Forall₂ ReadAs items items ↔ ∀ item ∈ items, ¬HasArrowFunction item.value.tokens := by
  rw [List.forall₂_same]
  exact forall₂_congr fun item _ => ReadAs.self_iff

/-- An item without an arrow function is read in one way. -/
theorem ReadAs.unique {item item' : Item} (h : ReadAs item item')
    (hplain : ¬HasArrowFunction item.value.tokens) : item' = item := by
  cases h with
  | meant => rfl
  | headAsKey head_spec kind balanced tokens_eq =>
    exact absurd ⟨_, _, _, head_spec, kind, .plain balanced, tokens_eq⟩ hplain

/-- Items without arrow functions are read in one way. -/
theorem eq_of_forall₂_readAs {items items' : List Item} (h : List.Forall₂ ReadAs items items')
    (hplain : ∀ item ∈ items, ¬HasArrowFunction item.value.tokens) : items' = items := by
  induction h with
  | nil => rfl
  | cons hitem _ ih =>
    obtain ⟨hfirst, hlater⟩ := List.forall_mem_cons.1 hplain
    rw [hitem.unique hfirst, ih hlater]

/-- No item that is read at all is crowded. -/
theorem not_isCrowded_of_forall₂_readAs {items items' : List Item}
    (h : List.Forall₂ ReadAs items items') : ∀ item ∈ items, ¬item.IsCrowded := by
  induction h with
  | nil => exact fun item hitem => absurd hitem List.not_mem_nil
  | cons hitem _ ih => exact List.forall_mem_cons.2 ⟨hitem.not_isCrowded, ih⟩

/-- Between the brackets of a literal, elements are read as one item each, or a second arrow in one
of them is a fault. -/
theorem Elements.read? {style : ArrayStyle} {start openStop : Nat} {op I : List Token}
    (hop : Opens style start openStop op) {items : List Item} (h : Elements I items) {c : Token}
    (hc : c.kind = .closing style.bracket) (rest : List Token) :
    (∃ items', List.Forall₂ ReadAs items items' ∧
      ArrayLiteral.read? (op ++ (I ++ c :: rest)) =
        .ok (some (⟨style, start, openStop, items', c.start⟩, rest))) ∨
    (∃ item ∈ items, item.IsCrowded) ∧ ∃ place,
      ArrayLiteral.read? (op ++ (I ++ c :: rest)) = .error ⟨.unexpectedArrow, place⟩ := by
  obtain ⟨bracket, -, hopening⟩ := ArrayOpening.read?_of_opens hop (I ++ c :: rest)
  rcases h.read style.bracket bracket.start with ⟨items', hlisting, hitems⟩ |
    ⟨hcrowded, place, hfault⟩
  · exact Or.inl ⟨items', hitems, read?_eq_some_iff.2 ⟨op, I, c, rfl, hop, hlisting, hc, rfl⟩⟩
  · refine Or.inr ⟨hcrowded, place, ?_⟩
    unfold ArrayLiteral.read?
    rw [hopening]
    simp only [hfault]
    rfl

end Script

namespace Config

open Script (ArrayLiteral ArrayStyle Elements Expression HasArrowFunction Item Opens ReadAs Token)

namespace Document

variable {document : Document} {path : SectionPath} {key value : Literal}

/-- An entry was set among the items of a section: it replaced what an item with the key bound, or
it came after the items. -/
structure SetAmong (document document' : Document) (path : SectionPath) (l : ArrayLiteral)
    (key value : Literal) (change : Change) : Prop where
  binds : document'.Binds path key.evaluated (.known value.evaluated)
  unchanged_iff : change = .unchanged ↔ ∃ item ∈ l.items,
    document.hasKey (.known key.evaluated) item = true ∧
      document.evaluate item.value = .known value.evaluated
  replaced_iff : change = .replaced ↔ ∃ item ∈ l.items,
    document.hasKey (.known key.evaluated) item = true ∧
      document.evaluate item.value ≠ .known value.evaluated
  inserted_iff : change = .inserted ↔
    ∀ item ∈ l.items, document.hasKey (.known key.evaluated) item = false
  unchanged : change = .unchanged → document' = document
  replaced : change = .replaced → document'.entriesAt path =
    document.rebound l key.evaluated (document.written value)
  inserted : change = .inserted → document'.entriesAt path = document.entriesOf l ++
    [⟨some (document.written key), document.written value⟩]

/-- An entry is set in each section with distinct keys. -/
theorem exists_setAmong (hd : document.Reachable) {place : Section}
    (hplace : document.sectionAt path = .ok place)
    (hnodup : (document.keyValues place.literal).Nodup)
    (hk : key.Representable) (hv : value.Representable) :
    ∃ document' change, document.setEntry path key value = (document', .ok change) ∧
      SetAmong document document' path place.literal key value change := by
  obtain ⟨-, hm⟩ := sectionAt_eq_ok_iff.1 hplace
  obtain ⟨document', change, hset, hsetAs⟩ := exists_setAs hd.isRead hm hnodup hk hv
  refine ⟨document', change, ?_, ?_⟩
  · rw [setEntry, ensure_of_leads hm]
    exact hset
  obtain ⟨m', hm', -, item', hitem', hvalue'⟩ := hsetAs.exists_binding hm hnodup
  have hbinds := (binds_iff_of_matching (v := .known value.evaluated) hm' hitem').2 hvalue'
  have hmem : ∀ {item : Item}, document.matching place.literal (.known key.evaluated) = [item] →
      ∀ i, i = item ↔ i ∈ place.literal.items ∧
        document.hasKey (.known key.evaluated) i = true := by
    intro item hitem i
    rw [← List.mem_filter, ← matching_eq, hitem, List.mem_singleton]
  cases hsetAs with
  | @unchanged item unique value_eq =>
    have hitem := (hmem unique item).1 rfl
    refine ⟨hbinds, iff_of_true rfl ⟨item, hitem.1, hitem.2, value_eq⟩, iff_of_false (by simp) ?_,
      iff_of_false (by simp) ?_, fun _ => rfl, by simp, by simp⟩
    · rintro ⟨i, hi, hkey, hne⟩
      obtain rfl := (hmem unique i).2 ⟨hi, hkey⟩
      exact hne value_eq
    · exact fun hnone => absurd hitem.2 (by simp [hnone item hitem.1])
  | @replaced _ m₂ item item₂ edited replaced value_ne value_written value_eq =>
    have hitem := (hmem replaced.unique item).1 rfl
    have hentries := replaced.entriesOf_eq
    rw [value_written, ← entriesAt_of_leads (edited.leads hm)] at hentries
    refine ⟨hbinds, iff_of_false (by simp) ?_, iff_of_true rfl ⟨item, hitem.1, hitem.2, value_ne⟩,
      iff_of_false (by simp) ?_, by simp, fun _ => hentries, by simp⟩
    · rintro ⟨i, hi, hkey, he⟩
      obtain rfl := (hmem replaced.unique i).2 ⟨hi, hkey⟩
      exact value_ne he
    · exact fun hnone => absurd hitem.2 (by simp [hnone item hitem.1])
  | @inserted _ m₂ e item₂ edited appended key_eq key_written value_written value_eq =>
    have hnone : ∀ item ∈ place.literal.items,
        document.hasKey (.known key.evaluated) item = false := by
      have hmissing := appended.missing
      rw [matching_eq, List.filter_eq_nil_iff] at hmissing
      exact fun item hitem => Bool.eq_false_iff.2 (hmissing item hitem)
    have hentries := appended.entriesOf_eq
    rw [key_eq, Option.map_some, key_written, value_written,
      ← entriesAt_of_leads (edited.leads hm)] at hentries
    refine ⟨hbinds, iff_of_false (by simp) ?_, iff_of_false (by simp) ?_, iff_of_true rfl hnone,
      by simp, by simp, fun _ => hentries⟩ <;>
    · rintro ⟨i, hi, hkey, -⟩
      rw [hnone i hi] at hkey
      cases hkey

/-- **The items are those that are meant just in case no value has an arrow function.** Otherwise
the items are read with the heads of functions for keys, or, where an item has more than one arrow,
the second is a fault. Where the items are those that are meant, an entry is set among them as in
any section. -/
theorem read?_elements_iff {style : ArrayStyle} {start openStop : Nat} {op I : List Token}
    (hop : Opens style start openStop op) {items : List Item} (h : Elements I items) {c : Token}
    (hc : c.kind = .closing style.bracket) (rest : List Token) :
    (ArrayLiteral.read? (op ++ (I ++ c :: rest)) =
        .ok (some (⟨style, start, openStop, items, c.start⟩, rest)) ↔
      ∀ item ∈ items, ¬HasArrowFunction item.value.tokens) ∧
    ((∃ item ∈ items, item.IsCrowded) ↔ ∃ place,
      ArrayLiteral.read? (op ++ (I ++ c :: rest)) = .error ⟨.unexpectedArrow, place⟩) ∧
    ((∀ item ∈ items, ¬item.IsCrowded) → ∃ items', List.Forall₂ ReadAs items items' ∧
      ArrayLiteral.read? (op ++ (I ++ c :: rest)) =
        .ok (some (⟨style, start, openStop, items', c.start⟩, rest))) ∧
    ((∀ item ∈ items, ¬HasArrowFunction item.value.tokens) →
      ∀ document : Document, document.Reachable → ∀ path place,
        document.sectionAt path = .ok place →
        ArrayLiteral.read? (op ++ (I ++ c :: rest)) = .ok (some (place.literal, rest)) →
        ((items.filterMap Item.key).map document.evaluate).Nodup →
        ∀ key value : Literal, key.Representable → value.Representable →
          place.literal.items = items ∧
          ∃ document' change, document.setEntry path key value = (document', .ok change) ∧
            SetAmong document document' path place.literal key value change) := by
  have hplain : (∀ item ∈ items, ¬HasArrowFunction item.value.tokens) →
      ArrayLiteral.read? (op ++ (I ++ c :: rest)) =
        .ok (some (⟨style, start, openStop, items, c.start⟩, rest)) := by
    intro hplain
    rcases h.read? hop hc rest with ⟨items', hitems, hread⟩ | ⟨⟨item, hitem, hcrowded⟩, -⟩
    · rwa [Script.eq_of_forall₂_readAs hitems hplain] at hread
    · exact absurd hcrowded.hasArrowFunction (hplain item hitem)
  refine ⟨⟨fun hread => ?_, hplain⟩, ?_, fun hcrowded => ?_, ?_⟩
  · rcases h.read? hop hc rest with ⟨items', hitems, hread'⟩ | ⟨-, place, hfault⟩
    · rw [hread] at hread'
      cases hread'
      exact Script.forall₂_readAs_self_iff.1 hitems
    · rw [hread] at hfault
      cases hfault
  · rcases h.read? hop hc rest with ⟨items', hitems, hread⟩ | ⟨hcrowded, hfault⟩
    · refine iff_of_false (fun ⟨item, hitem, hcrowded⟩ => ?_) fun ⟨place, hfault⟩ => ?_
      · exact Script.not_isCrowded_of_forall₂_readAs hitems item hitem hcrowded
      · rw [hread] at hfault
        cases hfault
    · exact iff_of_true hcrowded hfault
  · rcases h.read? hop hc rest with hread | ⟨⟨item, hitem, hmany⟩, -⟩
    · exact hread
    · exact absurd hmany (hcrowded item hitem)
  · intro hmeant document hd path place hplace hread hnodup key value hk hv
    rw [hplain hmeant] at hread
    have hliteral := (Prod.mk.inj (Option.some.inj (Except.ok.inj hread))).1
    have hitems : place.literal.items = items := by rw [← hliteral]
    refine ⟨hitems, exists_setAmong hd hplace ?_ hk hv⟩
    rwa [keyValues, hitems]

/-- An arrow function in brackets is part of a value, and an entry is set beside it. -/
theorem read?_elements_iff_in_brackets :
    let document := ofText "<?php\nreturn ['a' => (fn($c) => $c)];\n".toList
    let value : List Token := [⟨.opening .round, 21, "(".toList⟩, ⟨.word, 22, "fn".toList⟩,
      ⟨.opening .round, 24, "(".toList⟩, ⟨.variableName, 25, "$c".toList⟩,
      ⟨.closing .round, 27, ")".toList⟩, ⟨.doubleArrow, 29, "=>".toList⟩,
      ⟨.variableName, 32, "$c".toList⟩, ⟨.closing .round, 34, ")".toList⟩]
    document.file.root.items.map (·.value.tokens) = [value] ∧
      ∃ document' change, document.setEntry .root (.string "b".toList) (.string "x".toList) =
          (document', .ok change) ∧
        SetAmong document document' .root document.file.root (.string "b".toList)
          (.string "x".toList) change := by
  intro document value
  let op : List Token := [⟨.opening .square, 13, "[".toList⟩]
  let key : Expression := ⟨[⟨.string, 14, "'a'".toList⟩], by decide⟩
  let item : Item := ⟨some key, ⟨value, by decide⟩, none⟩
  let arrow : Token := ⟨.doubleArrow, 18, "=>".toList⟩
  let c : Token := ⟨.closing .square, 35, "]".toList⟩
  let rest : List Token := [⟨.semicolon, 36, ";".toList⟩]
  have hvalue : Script.Balanced value := ⟨by decide, by decide⟩
  have helements : Elements (key.tokens ++ arrow :: value) [item] :=
    .last (@Script.WrittenElement.keyed key item.value arrow ⟨by decide, by decide⟩ rfl
      (.plain hvalue))
  have hmeant : ∀ i ∈ [item], ¬HasArrowFunction i.value.tokens :=
    List.forall_mem_singleton.2 hvalue.not_hasArrowFunction
  have hread : ArrayLiteral.read? (op ++ (key.tokens ++ arrow :: value ++ c :: rest)) =
      .ok (some (document.file.root, rest)) := Script.eq_ok_of_toOption (by decide +kernel)
  have hroot : document.sectionAt .root = .ok ⟨.root, document.file.root⟩ :=
    sectionAt_eq_ok_iff.2 ⟨rfl, .here _⟩
  have hop : Opens .short 13 14 op := @Opens.short ⟨.opening .square, 13, "[".toList⟩ rfl
  obtain ⟨hitems, hset⟩ := (read?_elements_iff hop helements (c := c) rfl rest).2.2.2 hmeant
    document (ofText_reachable _) .root _ hroot hread (by decide +kernel) (.string "b".toList)
    (.string "x".toList) trivial trivial
  exact ⟨by rw [hitems]; rfl, hset⟩

/-- Behind a key, an arrow function is a fault; without a key, its head is read as one. -/
theorem arrow_function_misread :
    let op : List Token := [⟨.opening .square, 0, "[".toList⟩]
    let head : List Token := [⟨.word, 8, "fn".toList⟩, ⟨.opening .round, 10, "(".toList⟩,
      ⟨.closing .round, 11, ")".toList⟩]
    let arrow : Token := ⟨.doubleArrow, 13, "=>".toList⟩
    let body : List Token := [⟨.word, 16, "1".toList⟩]
    let c : Token := ⟨.closing .square, 17, "]".toList⟩
    let key : Expression := ⟨[⟨.string, 1, "'a'".toList⟩], by decide⟩
    let function : Expression := ⟨head ++ arrow :: body, by decide⟩
    let keyed : List Token := key.tokens ++ ⟨.doubleArrow, 5, "=>".toList⟩ :: function.tokens
    Elements keyed [⟨some key, function, none⟩] ∧
      ArrayLiteral.read? (op ++ (keyed ++ [c])) = .error ⟨.unexpectedArrow, 13⟩ ∧
      Elements function.tokens [⟨none, function, none⟩] ∧
      ArrayLiteral.read? (op ++ (function.tokens ++ [c])) =
        .ok (some (⟨.short, 0, 1, [⟨some ⟨head, by decide⟩, ⟨body, by decide⟩, none⟩], 17⟩,
          [])) := by
  intro op head arrow body c key function keyed
  have hhead : Script.FunctionHead head :=
    @Script.FunctionHead.intro [] [] [] [] ⟨.word, 8, "fn".toList⟩
      ⟨.opening .round, 10, "(".toList⟩ ⟨.closing .round, 11, ")".toList⟩ (Or.inl rfl) (by decide)
      (Or.inl rfl) rfl .nil (fun t ht => absurd ht List.not_mem_nil) rfl (Or.inl rfl)
  have hfunction : Script.Valued function.tokens :=
    .function hhead.upToArrow rfl (.plain ⟨by decide, by decide⟩)
  exact ⟨.last (@Script.WrittenElement.keyed key function _ ⟨by decide, by decide⟩ rfl hfunction),
    rfl, .last (.bare hfunction), rfl⟩

end Document
end Config
end Scaffold

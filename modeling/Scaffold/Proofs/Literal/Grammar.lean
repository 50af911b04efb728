/-
# The grammar of array literals

What may stand between the brackets of an array literal, told without reading it:

| condition | stated as |
| --- | --- |
| the brackets of the three shapes match | `Nested` |
| no tag stands anywhere, no semicolon outside the brackets | `Interior` |
| the commas outside the brackets end segments, and only the last segment may be empty | `Split` |
| a segment has one arrow outside the brackets at most, between two tokens of it | `OneArrow` |

Reading finds a literal just in case there are such tokens and the closing bracket behind them, and
its items are the segments (`read?_iff_interior`). A stack of open brackets decides `Nested`
(`nested_iff`); tokens of an expression are nested tokens without separators outside their brackets
(`openAfter_eq_iff`).
-/

import Mathlib.Data.List.Forall2
import Scaffold.Proofs.Literal.Spans

namespace Scaffold
namespace Script

/-! ### Nested brackets -/

/-- The token is a bracket. -/
def Token.IsBracket (token : Token) : Prop :=
  ∃ shape, token.kind = .opening shape ∨ token.kind = .closing shape

/-- Each bracket among the tokens is one of a pair of one shape, and pairs do not cross. -/
inductive Nested : List Token → Prop
  | nil : Nested []
  | plain {token : Token} {ts : List Token} (plain : ¬token.IsBracket) (later : Nested ts) :
      Nested (token :: ts)
  | group {bracket close : Token} {shape : Bracket} {inside ts : List Token}
      (opening : bracket.kind = .opening shape) (within : Nested inside)
      (closing : close.kind = .closing shape) (later : Nested ts) :
      Nested (bracket :: (inside ++ close :: ts))

/-- The brackets that are open after one more token, the innermost first. -/
def stackStep (opened : List Bracket) (kind : TokenKind) : Option (List Bracket) :=
  match kind, opened with
  | .opening shape, opened => some (shape :: opened)
  | .closing shape, innermost :: others => if shape = innermost then some others else none
  | .closing _, [] => none
  | _, opened => some opened

/-- The brackets that are open after some tokens. -/
def stackAfter (opened : List Bracket) (ts : List Token) : Option (List Bracket) :=
  ts.foldlM (fun opened token => stackStep opened token.kind) opened

/-- The brackets that are open after one token and others. -/
theorem stackAfter_cons (opened : List Bracket) (token : Token) (ts : List Token) :
    stackAfter opened (token :: ts) =
      (stackStep opened token.kind).bind (stackAfter · ts) := rfl

/-- The brackets that are open after some tokens and others. -/
theorem stackAfter_append (opened : List Bracket) (ts us : List Token) :
    stackAfter opened (ts ++ us) = (stackAfter opened ts).bind (stackAfter · us) :=
  List.foldlM_append ..

/-- A token that is no bracket opens and closes none. -/
theorem stackStep_plain {token : Token} (h : ¬token.IsBracket) (opened : List Bracket) :
    stackStep opened token.kind = some opened := by
  unfold stackStep
  split
  · rename_i hk
    exact absurd ⟨_, Or.inl hk⟩ h
  · rename_i hk
    exact absurd ⟨_, Or.inr hk⟩ h
  · rename_i hk
    exact absurd ⟨_, Or.inr hk⟩ h
  · rfl

/-- A closing bracket closes the innermost one of its shape. -/
theorem stackStep_closing (shape : Bracket) (opened : List Bracket) :
    stackStep (shape :: opened) (.closing shape) = some opened := if_pos rfl

/-- Nested tokens leave the open brackets as they are. -/
theorem Nested.stackAfter {ts : List Token} (h : Nested ts) (opened : List Bracket) :
    stackAfter opened ts = some opened := by
  induction h generalizing opened with
  | nil => rfl
  | plain plain _ ih => rw [stackAfter_cons, stackStep_plain plain, Option.bind_some, ih]
  | group opening _ closing _ ihInside ih =>
    rw [stackAfter_cons, opening, stackStep, Option.bind_some, stackAfter_append, ihInside,
      Option.bind_some, stackAfter_cons, closing, stackStep_closing, Option.bind_some, ih]

/-- An open bracket that is closed in the end has its partner, and what stands between the two is
nested. -/
theorem exists_partner {shape : Bracket} {opened opened' : List Bracket} {ts : List Token}
    (h : stackAfter (shape :: opened) ts = some opened') (hclosed : opened'.length ≤ opened.length) :
    ∃ inside close rest, ts = inside ++ close :: rest ∧ Nested inside ∧
      close.kind = .closing shape ∧ stackAfter opened rest = some opened' := by
  -- after an inner pair there are fewer tokens, but not the tail of the list
  induction hn : ts.length using Nat.strong_induction_on generalizing ts shape opened with
  | _ n ih =>
    subst hn
    cases ts with
    | nil =>
      cases h
      exact absurd hclosed (Nat.not_succ_le_self _)
    | cons token ts =>
      rw [stackAfter_cons] at h
      by_cases hbracket : token.IsBracket
      · obtain ⟨inner, hk | hk⟩ := hbracket
        · rw [hk, stackStep, Option.bind_some] at h
          obtain ⟨first, close, later, rfl, hfirst, hclose, hlater⟩ :=
            ih ts.length (Nat.lt_succ_self _) h (Nat.le_succ_of_le hclosed) rfl
          obtain ⟨second, close', rest, rfl, hsecond, hclose', hrest⟩ :=
            ih later.length (by simp only [List.length_cons, List.length_append]; omega) hlater
              hclosed rfl
          refine ⟨token :: (first ++ close :: second), close', rest, by simp, ?_, hclose', hrest⟩
          exact .group hk hfirst hclose hsecond
        · by_cases hshape : inner = shape
          · subst hshape
            rw [hk, stackStep_closing, Option.bind_some] at h
            exact ⟨[], token, ts, rfl, .nil, hk, h⟩
          · rw [hk, stackStep, if_neg hshape] at h
            cases h
      · rw [stackStep_plain hbracket, Option.bind_some] at h
        obtain ⟨inside, close, rest, rfl, hinside, hclose, hrest⟩ :=
          ih ts.length (Nat.lt_succ_self _) h hclosed rfl
        exact ⟨token :: inside, close, rest, rfl, .plain hbracket hinside, hclose, hrest⟩

/-- **A stack decides whether brackets are nested.** -/
theorem nested_iff {ts : List Token} : Nested ts ↔ stackAfter [] ts = some [] := by
  refine ⟨fun h => h.stackAfter [], fun h => ?_⟩
  induction hn : ts.length using Nat.strong_induction_on generalizing ts with
  | _ n ih =>
    subst hn
    cases ts with
    | nil => exact .nil
    | cons token ts =>
      rw [stackAfter_cons] at h
      by_cases hbracket : token.IsBracket
      · obtain ⟨shape, hk | hk⟩ := hbracket
        · rw [hk, stackStep, Option.bind_some] at h
          obtain ⟨inside, close, rest, rfl, hinside, hclose, hrest⟩ :=
            exists_partner h (Nat.le_refl _)
          refine .group hk hinside hclose (ih rest.length ?_ hrest rfl)
          simp only [List.length_cons, List.length_append]
          omega
        · rw [hk, stackStep] at h
          cases h
      · rw [stackStep_plain hbracket, Option.bind_some] at h
        exact .plain hbracket (ih ts.length (Nat.lt_succ_self _) h rfl)

/-- Behind nested tokens, nested ones leave the whole nested. -/
theorem nested_append {ts us : List Token} (h : Nested ts) : Nested (ts ++ us) ↔ Nested us := by
  rw [nested_iff, nested_iff, stackAfter_append, h.stackAfter, Option.bind_some]

/-- Behind a token that is no bracket, nested ones leave the whole nested. -/
theorem nested_cons {token : Token} (h : ¬token.IsBracket) {ts : List Token} :
    Nested (token :: ts) ↔ Nested ts := by
  rw [nested_iff, nested_iff, stackAfter_cons, stackStep_plain h, Option.bind_some]

/-- Nested tokens go on with a token that is no bracket. -/
theorem nested_append_cons {ts us : List Token} {token : Token} (h : Nested ts)
    (hplain : ¬token.IsBracket) : Nested (ts ++ token :: us) ↔ Nested us := by
  rw [nested_append h, nested_cons hplain]

/-! ### Tokens outside the brackets -/

/-- A token of the kind stands in `ts` outside all brackets, after `us` and before `vs`. -/
structure AtTop (kind : TokenKind) (ts us : List Token) (token : Token) (vs : List Token) :
    Prop where
  eq : ts = us ++ token :: vs
  nested : Nested us
  kind_eq : token.kind = kind

/-- No token of the kind stands outside the brackets. -/
def Lacks (kind : TokenKind) (ts : List Token) : Prop := ∀ us token vs, ¬AtTop kind ts us token vs

/-- No token lacks every kind. -/
theorem lacks_nil (kind : TokenKind) : Lacks kind [] := by
  intro us token vs h
  have := h.eq
  simp at this

/-- What stands outside the brackets stands before a token outside them, is that token, or stands
behind it. -/
theorem atTop_append_cons {kind : TokenKind} {ts rest us vs : List Token} {token t : Token}
    (hts : Nested ts) (hplain : ¬token.IsBracket) :
    AtTop kind (ts ++ token :: rest) us t vs ↔
      (∃ vs', AtTop kind ts us t vs' ∧ vs = vs' ++ token :: rest) ∨
      (us = ts ∧ t = token ∧ vs = rest ∧ t.kind = kind) ∨
      ∃ us', us = ts ++ token :: us' ∧ AtTop kind rest us' t vs := by
  constructor
  · rintro ⟨he, hus, hk⟩
    rcases List.append_eq_append_iff.1 he with ⟨ws, rfl, hws⟩ | ⟨ws, rfl, hws⟩
    · cases ws with
      | nil =>
        obtain ⟨rfl, rfl⟩ := List.cons.inj hws
        exact Or.inr (Or.inl ⟨List.append_nil ts, rfl, rfl, hk⟩)
      | cons w ws =>
        obtain ⟨rfl, rfl⟩ := List.cons.inj hws
        exact Or.inr (Or.inr ⟨ws, rfl, rfl, (nested_append_cons hts hplain).1 hus, hk⟩)
    · cases ws with
      | nil =>
        obtain ⟨rfl, rfl⟩ := List.cons.inj hws
        exact Or.inr (Or.inl ⟨(List.append_nil us).symm, rfl, rfl, hk⟩)
      | cons w ws =>
        obtain ⟨rfl, rfl⟩ := List.cons.inj hws
        exact Or.inl ⟨ws, ⟨rfl, hus, hk⟩, rfl⟩
  · rintro (⟨vs', ⟨rfl, hus, hk⟩, rfl⟩ | ⟨rfl, rfl, rfl, hk⟩ | ⟨us', rfl, rfl, hus, hk⟩)
    · exact ⟨by simp, hus, hk⟩
    · exact ⟨rfl, hts, hk⟩
    · exact ⟨by simp, (nested_append_cons hts hplain).2 hus, hk⟩

/-- A kind that stands outside the brackets stands before a token outside them, is its kind, or
stands behind it. -/
theorem lacks_append_cons {kind : TokenKind} {ts rest : List Token} {token : Token}
    (hts : Nested ts) (hplain : ¬token.IsBracket) :
    Lacks kind (ts ++ token :: rest) ↔ Lacks kind ts ∧ token.kind ≠ kind ∧ Lacks kind rest := by
  simp only [Lacks, atTop_append_cons hts hplain]
  constructor
  · intro h
    refine ⟨fun us t vs hat => h us t _ (Or.inl ⟨vs, hat, rfl⟩), fun hk => ?_, fun us t vs hat => ?_⟩
    · exact h ts token rest (Or.inr (Or.inl ⟨rfl, rfl, rfl, hk⟩))
    · exact h _ t vs (Or.inr (Or.inr ⟨us, rfl, hat⟩))
  · rintro ⟨hbefore, hne, hafter⟩ us t vs (⟨vs', hat, -⟩ | ⟨-, rfl, -, hk⟩ | ⟨us', -, hat⟩)
    · exact hbefore us t vs' hat
    · exact hne hk
    · exact hafter us' t vs hat

/-- A separator is no bracket. -/
theorem not_isBracket {token : Token} (h : token.kind = .comma ∨ token.kind = .doubleArrow) :
    ¬token.IsBracket := by
  rintro ⟨shape, hk | hk⟩ <;> rw [hk] at h <;> rcases h with h | h <;> cases h

/-! ### Expressions -/

/-- The kinds of tokens that end an expression where they stand outside its brackets. -/
def TokenKind.Separates (kind : TokenKind) : Prop :=
  kind = .comma ∨ kind = .doubleArrow ∨ kind = .semicolon

/-- No tag is among the tokens. -/
def TagFree (ts : List Token) : Prop := ∀ t ∈ ts, t.kind ≠ .openTag ∧ t.kind ≠ .closeTag

/-- A tag among tokens stands before a token, is that token, or stands behind it. -/
theorem tagFree_append_cons {ts rest : List Token} {token : Token} : TagFree (ts ++ token :: rest) ↔
    TagFree ts ∧ (token.kind ≠ .openTag ∧ token.kind ≠ .closeTag) ∧ TagFree rest := by
  rw [TagFree, List.forall_mem_append, List.forall_mem_cons]
  rfl

/-- One more token of an expression is a token that closes what it may, is no tag and separates
nothing. -/
theorem openStep_eq_some_iff {opened opened' : List Bracket} {kind : TokenKind} :
    openStep opened kind = some opened' ↔ stackStep opened kind = some opened' ∧
      (kind ≠ .openTag ∧ kind ≠ .closeTag) ∧ (opened = [] → ¬kind.Separates) := by
  cases opened <;> cases kind <;> simp [openStep, stackStep, TokenKind.Separates]

/-- The tokens of an expression close what they may, hold no tag, and separate nothing outside the
brackets. -/
theorem openAfter_iff_stackAfter {opened opened' : List Bracket} {ts : List Token} :
    openAfter opened ts = some opened' ↔ stackAfter opened ts = some opened' ∧ TagFree ts ∧
      ∀ us t vs, ts = us ++ t :: vs → stackAfter opened us = some [] → ¬t.kind.Separates := by
  induction ts generalizing opened with
  | nil => simp [openAfter, stackAfter, TagFree]
  | cons token ts ih =>
    have hocc : (∀ us t vs, token :: ts = us ++ t :: vs → stackAfter opened us = some [] →
          ¬t.kind.Separates) ↔ (opened = [] → ¬token.kind.Separates) ∧
        ∀ us t vs, ts = us ++ t :: vs →
          (stackStep opened token.kind).bind (stackAfter · us) = some [] → ¬t.kind.Separates := by
      constructor
      · refine fun h => ⟨fun hempty => ?_, fun us t vs he hus => ?_⟩
        · exact h [] token ts rfl (hempty ▸ rfl)
        · exact h (token :: us) t vs (by rw [he, List.cons_append]) hus
      · rintro ⟨hfirst, hlater⟩ us t vs he hus
        cases us with
        | nil =>
          obtain ⟨rfl, -⟩ := List.cons.inj he
          exact hfirst (Option.some.inj hus)
        | cons u us =>
          obtain ⟨rfl, rfl⟩ := List.cons.inj he
          exact hlater us t vs rfl hus
    rw [openAfter_cons, stackAfter_cons, hocc, TagFree, List.forall_mem_cons]
    cases hstep : stackStep opened token.kind with
    | none =>
      have hnone : openStep opened token.kind = none := by
        rw [Option.eq_none_iff_forall_ne_some]
        intro next hnext
        rw [(openStep_eq_some_iff.1 hnext).1] at hstep
        cases hstep
      have hfail : (none : Option (List Bracket)) ≠ some opened' := (Option.some_ne_none _).symm
      rw [hnone]
      exact iff_of_false hfail fun h => hfail h.1
    | some next =>
      simp only [Option.bind_some]
      rw [Option.bind_eq_some_iff]
      constructor
      · rintro ⟨next', hopen, hrest⟩
        obtain ⟨hnext, htag, hsep⟩ := openStep_eq_some_iff.1 hopen
        obtain rfl : next = next' := Option.some.inj (hstep.symm.trans hnext)
        obtain ⟨hstack, htags, hseps⟩ := ih.1 hrest
        exact ⟨hstack, ⟨htag, htags⟩, hsep, hseps⟩
      · rintro ⟨hstack, ⟨htag, htags⟩, hsep, hseps⟩
        exact ⟨next, openStep_eq_some_iff.2 ⟨hstep, htag, hsep⟩, ih.2 ⟨hstack, htags, hseps⟩⟩

/-- **The tokens of an expression are nested**, hold no tag, and have no separator outside their
brackets. -/
theorem openAfter_eq_iff {ts : List Token} : openAfter [] ts = some [] ↔
    Nested ts ∧ TagFree ts ∧ Lacks .comma ts ∧ Lacks .doubleArrow ts ∧ Lacks .semicolon ts := by
  rw [openAfter_iff_stackAfter, ← nested_iff]
  refine and_congr_right fun _ => and_congr_right fun _ => ?_
  constructor
  · intro h
    refine ⟨?_, ?_, ?_⟩ <;> rintro us t vs ⟨he, hus, hk⟩ <;>
      refine h us t vs he (nested_iff.1 hus) ?_
    · exact Or.inl hk
    · exact Or.inr (Or.inl hk)
    · exact Or.inr (Or.inr hk)
  · rintro ⟨hcomma, harrow, hsemicolon⟩ us t vs he hus (hk | hk | hk)
    · exact hcomma us t vs ⟨he, nested_iff.2 hus, hk⟩
    · exact harrow us t vs ⟨he, nested_iff.2 hus, hk⟩
    · exact hsemicolon us t vs ⟨he, nested_iff.2 hus, hk⟩

/-- An expression, as the grammar has it. -/
theorem balanced_iff {ts : List Token} : Balanced ts ↔ ts ≠ [] ∧
    Nested ts ∧ TagFree ts ∧ Lacks .comma ts ∧ Lacks .doubleArrow ts ∧ Lacks .semicolon ts :=
  and_congr_right fun _ => openAfter_eq_iff

/-! ### Segments -/

/-- The tokens up to a comma or the end, and the comma. -/
structure Segment where
  tokens : List Token
  comma : Option Token

/-- The commas of `ts` outside the brackets end segments. -/
inductive Split : List Token → List Segment → Prop
  | last {ts : List Token} (lacks : Lacks .comma ts) : Split ts [⟨ts, none⟩]
  | cons {ts rest : List Token} {comma : Token} {later : List Segment} (nested : Nested ts)
      (lacks : Lacks .comma ts) (kind : comma.kind = .comma) (split : Split rest later) :
      Split (ts ++ comma :: rest) (⟨ts, some comma⟩ :: later)

/-- There is one arrow outside the brackets at most, and it is neither the first token nor the
last. -/
structure OneArrow (ts : List Token) : Prop where
  unique {us us' : List Token} {arrow arrow' : Token} {vs vs' : List Token}
    (h : AtTop .doubleArrow ts us arrow vs) (h' : AtTop .doubleArrow ts us' arrow' vs') : us' = us
  inner {us : List Token} {arrow : Token} {vs : List Token}
    (h : AtTop .doubleArrow ts us arrow vs) : us ≠ [] ∧ vs ≠ []

/-- The tokens may stand between the brackets of an array literal, and the segments are theirs. -/
structure Interior (ts : List Token) (segments : List Segment) : Prop where
  nested : Nested ts
  tagFree : TagFree ts
  semicolon : Lacks .semicolon ts
  split : Split ts segments
  nonempty : ∀ s ∈ segments, s.comma.isSome → s.tokens ≠ []
  arrow : ∀ s ∈ segments, OneArrow s.tokens

/-- The item of a segment: without an arrow the tokens are its value; otherwise the key stands
before the arrow and the value behind it. -/
structure IsItem (s : Segment) (item : Item) : Prop where
  tokens : (item.key = none ∧ item.value.tokens = s.tokens ∧ Lacks .doubleArrow s.tokens) ∨
    ∃ key arrow, item.key = some key ∧ AtTop .doubleArrow s.tokens key.tokens arrow item.value.tokens
  comma : item.comma = s.comma.map Token.start

/-- The items are those of the segments that are not empty. -/
def Items (segments : List Segment) (items : List Item) : Prop :=
  List.Forall₂ IsItem (segments.filter fun s => !s.tokens.isEmpty) items

/-- Where there is one arrow outside the brackets, none stands before it or behind it. -/
theorem lacks_of_oneArrow {us vs : List Token} {arrow : Token}
    (h : OneArrow (us ++ arrow :: vs)) (hus : Nested us) (hk : arrow.kind = .doubleArrow) :
    Lacks .doubleArrow us ∧ Lacks .doubleArrow vs := by
  have hplain := not_isBracket (Or.inr hk)
  have hat : AtTop .doubleArrow (us ++ arrow :: vs) us arrow vs := ⟨rfl, hus, hk⟩
  constructor <;> intro us' arrow' vs' h'
  · have hbefore := h.unique hat ((atTop_append_cons hus hplain).2 (Or.inl ⟨vs', h', rfl⟩))
    have := congrArg List.length h'.eq
    rw [hbefore, List.length_append, List.length_cons] at this
    omega
  · have hbehind := h.unique hat
      ((atTop_append_cons hus hplain).2 (Or.inr (Or.inr ⟨us', rfl, h'⟩)))
    have := congrArg List.length hbehind
    rw [List.length_append, List.length_cons] at this
    omega

/-- The conditions on the tokens of a segment, apart from its arrow. -/
structure Listed (ts : List Token) : Prop where
  nested : Nested ts
  tagFree : TagFree ts
  comma : Lacks .comma ts
  semicolon : Lacks .semicolon ts

section
variable {ts : List Token}

/-- The tokens of a segment are those of the element that its item is. -/
theorem Listed.element (h : Listed ts) (hne : ts ≠ []) (harrow : OneArrow ts) {comma : Option Token}
    {item : Item} (hitem : IsItem ⟨ts, comma⟩ item) : Element ts item.key item.value := by
  rcases hitem.tokens with ⟨hkey, htokens, hlacks⟩ | ⟨key, arrow, hkey, hat⟩
  · have hvalue : Balanced item.value.tokens :=
      htokens ▸ balanced_iff.2 ⟨hne, h.nested, h.tagFree, h.comma, hlacks, h.semicolon⟩
    have helement := Element.bare hvalue
    rw [htokens] at helement
    rwa [hkey]
  · obtain ⟨hts, hnested, hk⟩ := hat
    obtain rfl : ts = key.tokens ++ arrow :: item.value.tokens := hts
    have hplain := not_isBracket (Or.inr hk)
    obtain ⟨hbefore, hbehind⟩ := lacks_of_oneArrow harrow hnested hk
    have hcomma := (lacks_append_cons hnested hplain).1 h.comma
    have hsemicolon := (lacks_append_cons hnested hplain).1 h.semicolon
    have hrest : Nested item.value.tokens := (nested_append_cons hnested hplain).1 h.nested
    obtain ⟨htags, -, htags'⟩ := tagFree_append_cons.1 h.tagFree
    rw [hkey]
    exact .keyed (balanced_iff.2 ⟨key.nonempty, hnested, htags, hcomma.1, hbefore, hsemicolon.1⟩) hk
      (balanced_iff.2
        ⟨item.value.nonempty, hrest, htags', hcomma.2.2, hbehind, hsemicolon.2.2⟩)

/-- A segment that is not empty has an item. -/
theorem exists_isItem (hne : ts ≠ []) (harrow : OneArrow ts) (comma : Option Token) :
    ∃ item, IsItem ⟨ts, comma⟩ item := by
  by_cases hlacks : Lacks .doubleArrow ts
  · exact ⟨⟨none, ⟨ts, hne⟩, comma.map Token.start⟩, Or.inl ⟨rfl, rfl, hlacks⟩, rfl⟩
  · simp only [Lacks, not_forall, not_not] at hlacks
    obtain ⟨us, arrow, vs, hat⟩ := hlacks
    obtain ⟨hus, hvs⟩ := harrow.inner hat
    exact ⟨⟨some ⟨us, hus⟩, ⟨vs, hvs⟩, comma.map Token.start⟩, Or.inr ⟨_, arrow, rfl, hat⟩, rfl⟩

/-- The tokens of an element are a segment, and the element is its item. -/
theorem Element.listed {key : Option Expression} {value : Expression} (h : Element ts key value)
    (comma : Option Token) : ts ≠ [] ∧ Listed ts ∧ OneArrow ts ∧
      IsItem ⟨ts, comma⟩ ⟨key, value, comma.map Token.start⟩ := by
  cases h with
  | bare hv =>
    obtain ⟨hne, hnested, htags, hcomma, harrow, hsemicolon⟩ := balanced_iff.1 hv
    exact ⟨hne, ⟨hnested, htags, hcomma, hsemicolon⟩,
      ⟨fun h => absurd h (harrow _ _ _), fun h => absurd h (harrow _ _ _)⟩,
      Or.inl ⟨rfl, rfl, harrow⟩, rfl⟩
  | @keyed key value arrow hk ha hv =>
    obtain ⟨-, hnested, htags, hcomma, harrow, hsemicolon⟩ := balanced_iff.1 hk
    obtain ⟨-, hnested', htags', hcomma', harrow', hsemicolon'⟩ := balanced_iff.1 hv
    have hplain := not_isBracket (Or.inr ha)
    have hat : ∀ {us t vs}, AtTop .doubleArrow (key.tokens ++ arrow :: value.tokens) us t vs →
        us = key.tokens ∧ vs = value.tokens := by
      intro us t vs h
      rcases (atTop_append_cons hnested hplain).1 h with ⟨vs', h, -⟩ | ⟨hus, -, hvs, -⟩ | ⟨us', -, h⟩
      · exact absurd h (harrow _ _ _)
      · exact ⟨hus, hvs⟩
      · exact absurd h (harrow' _ _ _)
    refine ⟨by simp, ⟨(nested_append_cons hnested hplain).2 hnested', ?_, ?_, ?_⟩, ⟨?_, ?_⟩,
      Or.inr ⟨key, arrow, rfl, rfl, hnested, ha⟩, rfl⟩
    · exact tagFree_append_cons.2 ⟨htags, by rw [ha]; exact ⟨nofun, nofun⟩, htags'⟩
    · exact (lacks_append_cons hnested hplain).2 ⟨hcomma, by rw [ha]; nofun, hcomma'⟩
    · exact (lacks_append_cons hnested hplain).2 ⟨hsemicolon, by rw [ha]; nofun, hsemicolon'⟩
    · exact fun h h' => (hat h').1.trans (hat h).1.symm
    · exact fun h => ⟨(hat h).1 ▸ key.nonempty, (hat h).2 ▸ value.nonempty⟩

end

/-! ### Interiors -/

/-- No tokens have no arrow. -/
theorem oneArrow_nil : OneArrow [] :=
  ⟨fun h => absurd h (lacks_nil _ _ _ _), fun h => absurd h (lacks_nil _ _ _ _)⟩

/-- The tokens of some items are an interior, and its segments are the items. -/
theorem Listing.interior {ts : List Token} {items : List Item} (h : Listing ts items) :
    ∃ segments, Interior ts segments ∧ Items segments items := by
  induction h with
  | nil =>
    refine ⟨[⟨[], none⟩], ⟨.nil, fun t ht => absurd ht List.not_mem_nil, lacks_nil _,
      .last (lacks_nil _), ?_, List.forall_mem_singleton.2 oneArrow_nil⟩, .nil⟩
    exact List.forall_mem_singleton.2 nofun
  | @last ts key value h =>
    obtain ⟨hne, hlisted, harrow, hitem⟩ := h.listed none
    refine ⟨[⟨ts, none⟩], ⟨hlisted.nested, hlisted.tagFree, hlisted.semicolon, .last hlisted.comma,
      List.forall_mem_singleton.2 nofun, List.forall_mem_singleton.2 harrow⟩, ?_⟩
    rw [Items, List.filter_cons_of_pos (by simpa using hne)]
    exact .cons hitem .nil
  | @cons ts rest key value comma items h hc _ ih =>
    obtain ⟨hne, hlisted, harrow, hitem⟩ := h.listed (some comma)
    obtain ⟨segments, hrest, hitems⟩ := ih
    have hplain := not_isBracket (Or.inl hc)
    refine ⟨⟨ts, some comma⟩ :: segments, ⟨?_, ?_, ?_,
      .cons hlisted.nested hlisted.comma hc hrest.split,
      List.forall_mem_cons.2 ⟨fun _ => hne, hrest.nonempty⟩,
      List.forall_mem_cons.2 ⟨harrow, hrest.arrow⟩⟩, ?_⟩
    · exact (nested_append_cons hlisted.nested hplain).2 hrest.nested
    · exact tagFree_append_cons.2
        ⟨hlisted.tagFree, by rw [hc]; exact ⟨nofun, nofun⟩, hrest.tagFree⟩
    · exact (lacks_append_cons hlisted.nested hplain).2
        ⟨hlisted.semicolon, by rw [hc]; nofun, hrest.semicolon⟩
    · rw [Items, List.filter_cons_of_pos (by simpa using hne)]
      exact .cons hitem hitems

/-- The items of an interior are listed by its tokens. -/
theorem Interior.listing {ts : List Token} {segments : List Segment} {items : List Item}
    (h : Interior ts segments) (hitems : Items segments items) : Listing ts items := by
  obtain ⟨hnested, htags, hsemicolon, hsplit, hnonempty, harrow⟩ := h
  induction hsplit generalizing items with
  | @last ts hcomma =>
    have harrow := List.forall_mem_singleton.1 harrow
    by_cases hne : ts = []
    · subst hne
      cases hitems
      exact .nil
    · rw [Items, List.filter_cons_of_pos (by simpa using hne)] at hitems
      cases hitems with
      | @cons _ item _ _ hitem hlater =>
        cases hlater
        obtain ⟨key, value, comma⟩ := item
        cases hitem.comma
        exact .last (Listed.element ⟨hnested, htags, hcomma, hsemicolon⟩ hne harrow hitem)
  | @cons ts rest comma later hts hcomma hc _ ih =>
    obtain ⟨hfirst, hnonempty⟩ := List.forall_mem_cons.1 hnonempty
    obtain ⟨hone, harrow⟩ := List.forall_mem_cons.1 harrow
    have hne := hfirst rfl
    have hplain := not_isBracket (Or.inl hc)
    obtain ⟨hbefore, -, hbehind⟩ := (lacks_append_cons hts hplain).1 hsemicolon
    obtain ⟨htagsBefore, -, htagsBehind⟩ := tagFree_append_cons.1 htags
    rw [Items, List.filter_cons_of_pos (by simpa using hne)] at hitems
    cases hitems with
    | @cons _ item _ items hitem hlater =>
      obtain ⟨key, value, place⟩ := item
      cases hitem.comma
      exact .cons (Listed.element ⟨hts, htagsBefore, hcomma, hbefore⟩ hne hone hitem) hc
        (ih hlater ((nested_append_cons hts hplain).1 hnested) htagsBehind hbehind hnonempty harrow)

/-- The segments of an interior have items. -/
theorem Interior.exists_items {ts : List Token} {segments : List Segment}
    (h : Interior ts segments) : ∃ items, Items segments items := by
  have harrow := h.arrow
  clear h
  induction segments with
  | nil => exact ⟨[], .nil⟩
  | cons s segments ih =>
    obtain ⟨hfirst, hrest⟩ := List.forall_mem_cons.1 harrow
    obtain ⟨items, hitems⟩ := ih hrest
    by_cases hne : s.tokens = []
    · exact ⟨items, by rwa [Items, List.filter_cons_of_neg (by simpa using hne)]⟩
    · obtain ⟨item, hitem⟩ := exists_isItem hne hfirst s.comma
      refine ⟨item :: items, ?_⟩
      rw [Items, List.filter_cons_of_pos (by simpa using hne)]
      exact .cons hitem hitems

/-- After the tokens `inside` the bracket `c` closes a literal of the style, and `after` follows. -/
structure Closes (style : ArrayStyle) (ts inside : List Token) (c : Token) (after : List Token)
    (segments : List Segment) : Prop where
  eq : ts = inside ++ c :: after
  kind : c.kind = .closing style.bracket
  interior : Interior inside segments

section
variable {style : ArrayStyle} {start openStop : Nat} {op ts after : List Token}
  (hop : Opens style start openStop op)
include hop

/-- What a bracket closes is read, with the items of its segments. -/
theorem Closes.read?_eq {inside : List Token} {c : Token} {segments : List Segment}
    (h : Closes style ts inside c after segments) : ∃ items, Items segments items ∧
      ArrayLiteral.read? (op ++ ts) =
        .ok (some (⟨style, start, openStop, items, c.start⟩, after)) := by
  obtain ⟨rfl, hc, hinterior⟩ := h
  obtain ⟨items, hitems⟩ := hinterior.exists_items
  exact ⟨items, hitems,
    read?_eq_some_iff.2 ⟨op, inside, c, rfl, hop, hinterior.listing hitems, hc, rfl⟩⟩

/-- What is read is closed by a bracket. -/
theorem exists_closes {literal : ArrayLiteral}
    (h : ArrayLiteral.read? (op ++ ts) = .ok (some (literal, after))) :
    ∃ inside c segments, Closes style ts inside c after segments := by
  obtain ⟨op', inside, c, he, hspans⟩ := read?_eq_some_iff.1 h
  obtain ⟨bracket, -, hopening⟩ := ArrayOpening.read?_of_opens hop ts
  obtain ⟨bracket', -, hopening'⟩ := ArrayOpening.read?_of_opens hspans.opens (inside ++ c :: after)
  rw [← he, hopening, Option.some.injEq, ArrayOpening.mk.injEq] at hopening'
  obtain ⟨hstyle, -, -, rfl⟩ := hopening'
  obtain ⟨segments, hinterior, -⟩ := hspans.listing.interior
  exact ⟨inside, c, segments, rfl, hstyle ▸ hspans.closing, hinterior⟩

/-- Only one bracket closes a literal. -/
theorem Closes.unique {inside inside' : List Token} {c c' : Token} {after' : List Token}
    {segments segments' : List Segment} (h : Closes style ts inside c after segments)
    (h' : Closes style ts inside' c' after' segments') :
    inside' = inside ∧ c' = c ∧ after' = after := by
  obtain ⟨items, -, hok⟩ := h.read?_eq hop
  obtain ⟨items', -, hok'⟩ := h'.read?_eq hop
  rw [hok, Except.ok.injEq, Option.some.injEq, Prod.mk.injEq] at hok'
  obtain ⟨-, rfl⟩ := hok'
  have he := h'.eq.symm.trans h.eq
  rw [List.append_cons, List.append_cons inside] at he
  obtain ⟨hinside, hc⟩ := List.append_inj' (List.append_cancel_right he) rfl
  exact ⟨hinside, List.singleton_injective hc, rfl⟩

/-- What opens a literal is not passed over. -/
theorem read?_ne_none : ArrayLiteral.read? (op ++ ts) ≠ .ok none := by
  intro h
  obtain ⟨bracket, -, hopening⟩ := ArrayOpening.read?_of_opens hop ts
  unfold ArrayLiteral.read? at h
  rw [hopening] at h
  obtain ⟨_, -, h⟩ := map_eq_ok_iff.1 h
  cases h

end

/-- **An array literal is read just in case its tokens are those of the grammar.**  The tokens `op`
open a literal and `ts` follow. If some bracket closes it, no other does; reading then gives the
literal with that bracket and leaves what follows it, and its items are the segments that are not
empty, in order, with the commas that end them. Otherwise reading gives a fault. -/
theorem read?_iff_interior {style : ArrayStyle} {start openStop : Nat} {op : List Token}
    (hop : Opens style start openStop op) (ts : List Token) :
    ((∃ literal after, ArrayLiteral.read? (op ++ ts) = .ok (some (literal, after))) ↔
      ∃ inside c after segments, Closes style ts inside c after segments) ∧
    (∀ inside c after segments, Closes style ts inside c after segments →
      (∀ inside' c' after' segments', Closes style ts inside' c' after' segments' →
        inside' = inside ∧ c' = c ∧ after' = after) ∧
      ∃ items, Items segments items ∧ ArrayLiteral.read? (op ++ ts) =
        .ok (some (⟨style, start, openStop, items, c.start⟩, after))) ∧
    ((¬∃ inside c after segments, Closes style ts inside c after segments) →
      ∃ fault, ArrayLiteral.read? (op ++ ts) = .error fault) := by
  refine ⟨⟨?_, ?_⟩, fun inside c after segments h =>
    ⟨fun inside' c' after' segments' h' => h.unique hop h', h.read?_eq hop⟩, fun hnone => ?_⟩
  · rintro ⟨literal, after, h⟩
    obtain ⟨inside, c, segments, h⟩ := exists_closes hop h
    exact ⟨inside, c, after, segments, h⟩
  · rintro ⟨inside, c, after, segments, h⟩
    obtain ⟨items, -, h⟩ := h.read?_eq hop
    exact ⟨_, after, h⟩
  · cases hresult : ArrayLiteral.read? (op ++ ts) with
    | error fault => exact ⟨fault, rfl⟩
    | ok found =>
      exfalso
      cases found with
      | some found =>
        obtain ⟨inside, c, segments, h⟩ := exists_closes hop hresult
        exact hnone ⟨inside, c, _, segments, h⟩
      | none => exact read?_ne_none hop hresult

/-- `Array(1, 'a' => [2],)` is read, and `Array(1,, 2)` is not. -/
theorem read?_iff_interior_behind_comma :
    let op : List Token := [⟨.word, 0, "Array".toList⟩, ⟨.opening .round, 5, "(".toList⟩]
    let ts : List Token := [⟨.word, 6, "1".toList⟩, ⟨.comma, 7, ",".toList⟩,
      ⟨.string, 9, "'a'".toList⟩, ⟨.doubleArrow, 13, "=>".toList⟩,
      ⟨.opening .square, 16, "[".toList⟩, ⟨.word, 17, "2".toList⟩,
      ⟨.closing .square, 18, "]".toList⟩, ⟨.comma, 19, ",".toList⟩,
      ⟨.closing .round, 20, ")".toList⟩]
    let us : List Token := [⟨.word, 6, "1".toList⟩, ⟨.comma, 7, ",".toList⟩,
      ⟨.comma, 8, ",".toList⟩, ⟨.word, 10, "2".toList⟩, ⟨.closing .round, 11, ")".toList⟩]
    Opens .long 0 6 op ∧ (∃ inside c after segments, Closes .long ts inside c after segments) ∧
      ¬∃ inside c after segments, Closes .long us inside c after segments := by
  intro op ts us
  have hop : Opens .long 0 6 op :=
    @Opens.long ⟨.word, 0, "Array".toList⟩ ⟨.opening .round, 5, "(".toList⟩ (by decide) rfl
  refine ⟨hop, (read?_iff_interior hop ts).1.1 ?_, fun h => ?_⟩
  · exact ⟨_, _, rfl⟩
  · obtain ⟨literal, after, h⟩ := (read?_iff_interior hop us).1.2 h
    cases h

end Script
end Scaffold

/-
# Appending an item to a section

An item `key => value` is put after the last item of a section. Wherever the layout puts it, the
new text is a document in which the section has one more item, the new one, and everything beside
the way to it is as before (`exists_appended`).
-/

import Scaffold.Proofs.Document.Insertion
import Scaffold.Proofs.Document.Splice
import Scaffold.Proofs.Document.Written

namespace Scaffold
namespace Config

open Script (ArrayLiteral Carried Cut Element Expression Item ItemTwin Listing Piece Skipped Spans
  Token isWordChar tokensFrom)

/-! ### The tokens of an item -/

/-- The pieces of an item, from those of its key and its value. -/
def itemPieces (key value : List Piece) : List Piece :=
  key ++ ⟨.blank, [' ']⟩ :: ⟨.token .doubleArrow, ['=', '>']⟩ :: ⟨.blank, [' ']⟩ :: value

/-- The pieces of a text of commas. -/
def commaPieces (text : Text) : List Piece := text.map fun c => ⟨.token .comma, [c]⟩

/-- The pieces of a fragment are its text. -/
theorem Fragment.textOf_eq {s : Text} {ps : List Piece} (h : Fragment s ps) :
    Script.textOf ps = s := (h.cut [] (by simp)).textOf_eq

section
variable {kt vt : Text} {kps vps : List Piece} (hk : Fragment kt kps) (hv : Fragment vt vps)
include hk hv

/-- A new item is cut into its key, the arrow and its value. -/
theorem cut_item {v : Text} (hw : ¬v.head?.any isWordChar) :
    Cut v (kt ++ " => ".toList ++ vt) (itemPieces kps vps) := by
  have hblank : ∀ w : Text, Cut w [' '] [⟨.blank, [' ']⟩] := fun w =>
    .single (Script.pieceAt_of_isGap rfl _) (by simp)
  have harrow := Cut.spelling rfl (by decide : Script.TokenKind.doubleArrow ≠ .closeTag)
  have hsep := (hblank _).append ((harrow _).append ((hblank _).append (hv.cut v hw)))
  have hkey := (hk.cut _ (by simp [isWordChar])).append hsep
  have htext : kt ++ " => ".toList ++ vt = kt ++ ([' '] ++ (['=', '>'] ++ ([' '] ++ vt))) := by
    rw [List.append_assoc]
    rfl
  rw [htext]
  exact hkey

/-- The tokens of an item are those of its key, an arrow, and those of its value. -/
theorem element_item (offset : Nat) : ∃ key value : Expression,
    Element (Token.ofPieces offset (itemPieces kps vps)) (some key) value ∧
      key.tokens = Token.ofPieces offset kps ∧
      value.tokens = Token.ofPieces (offset + (kt ++ " => ".toList).length) vps := by
  let key : Expression := ⟨Token.ofPieces offset kps, (hk.balanced offset).1⟩
  let value : Expression :=
    ⟨Token.ofPieces (offset + (kt ++ " => ".toList).length) vps, (hv.balanced _).1⟩
  refine ⟨key, value, ?_, rfl, rfl⟩
  have htokens : Token.ofPieces offset (itemPieces kps vps) = Token.ofPieces offset kps ++
      ⟨.doubleArrow, offset + kt.length + 1, ['=', '>']⟩ ::
        Token.ofPieces (offset + (kt ++ " => ".toList).length) vps := by
    rw [itemPieces, Token.ofPieces_append, hk.textOf_eq]
    simp only [Token.ofPieces, List.length_append, List.length_cons, List.length_nil]
    rfl
  rw [htokens]
  exact @Element.keyed key value _ (hk.balanced offset) rfl (hv.balanced _)

end

/-- An optional comma is cut into itself. -/
theorem cut_comma {text : Text} (h : text = [] ∨ text = [',']) (v : Text) :
    Cut v text (commaPieces text) := by
  rcases h with rfl | rfl
  · exact .nil
  · exact .spelling rfl (by decide) v

/-- The tokens of a text in which an item has been put between two gaps. -/
theorem tokensFrom_planned {sep tail g₁ g₂ z item : Text} {ps : List Piece} {zs : List Token}
    {origin : Nat} (hsep : sep = [] ∨ sep = [',']) (htail : tail = [] ∨ tail = [','])
    (h₁ : ∀ w, Skipped w g₁) (h₂ : Skipped z g₂) (hitem : Cut (tail ++ (g₂ ++ z)) item ps)
    (hz : tokensFrom origin z = .ok zs) (offset : Nat) : ∃ place target,
      place = offset + (sep ++ g₁).length ∧
      target = offset + (sep ++ (g₁ ++ (item ++ (tail ++ g₂)))).length ∧
      tokensFrom offset (sep ++ (g₁ ++ (item ++ (tail ++ (g₂ ++ z))))) =
        .ok (Token.ofPieces offset (commaPieces sep) ++ (Token.ofPieces place ps ++
          (Token.ofPieces (place + item.length) (commaPieces tail) ++
            zs.map (Token.move origin target)))) := by
  refine ⟨_, _, rfl, rfl, ?_⟩
  rw [(cut_comma hsep _).tokensFrom_append, (h₁ _).tokensFrom_append, hitem.tokensFrom_append,
    (cut_comma htail _).tokensFrom_append, h₂.tokensFrom_append, Script.tokensFrom_move hz]
  simp only [Except.map, List.length_append, Nat.add_assoc]

/-! ### The place of an item -/

/-- Between a token and a closing token behind it is a place for an item. -/
theorem Slot.of_neighbours {source : Text} {before after : List Token} {t c : Token} {x g y : Text}
    (h : Script.Neighbours source before t c after x g y) {shape : Script.Bracket}
    (hc : c.kind = .closing shape) : Slot source (x ++ t.text) g (c.text ++ y) where
  source_eq := by rw [h.source_eq, List.append_assoc]
  gap := h.gap
  token := h.startsToken (by rw [hc]; simp)
  getLast?_ne := by
    rw [List.getLast?_append, List.getLast?_eq_some_getLast h.text_ne_nil, Option.some_or,
      ← List.getLast?_eq_some_getLast h.text_ne_nil]
    exact h.getLast?_ne

/-- The token `t` is the last one before the closing bracket of `m`. -/
inductive LastToken (m : ArrayLiteral) (t : Token) : Prop
  | bracket (empty : m.items = []) (stop : t.stop = m.openStop) (fence : Script.fenceKind t.kind)
  | comma {last : Item} (item : m.items.getLast? = some last) (place : last.comma = some t.start)
      (kind : t.kind = .comma)
  | value {last : Item} (item : m.items.getLast? = some last) (bare : last.comma = none)
      (stop : t.stop = last.stop)

/-- A literal has a last token before its closing bracket. -/
theorem exists_lastToken {op I : List Token} {c : Token} {m : ArrayLiteral} (h : Spans op I c m) :
    ∃ us t, op ++ I = us ++ [t] ∧ LastToken m t := by
  cases hlast : m.items.getLast? with
  | none =>
    rw [List.getLast?_eq_none_iff] at hlast
    obtain rfl := h.listing.eq_nil_iff.2 hlast
    obtain ⟨us, t, rfl, hstop, hk⟩ := h.opens.exists_stop_eq
    refine ⟨us, t, by rw [List.append_nil], .bracket hlast hstop ?_⟩
    rw [hk]
    cases m.style with
    | short => exact Or.inr (Or.inr (Or.inl rfl))
    | long => exact Or.inr (Or.inr (Or.inr rfl))
  | some last =>
    obtain ⟨us, t, rfl, ⟨place, hcomma, hk, rfl⟩ | ⟨hcomma, hstop⟩⟩ := h.listing.getLast hlast
    · exact ⟨op ++ us, t, by rw [List.append_assoc], .comma hlast hcomma hk⟩
    · exact ⟨op ++ us, t, by rw [List.append_assoc], .value hlast hcomma hstop⟩

/-- The commas before and after a new item: one after it if all items so far have one, and one
before it if the last item has none. -/
inductive ItemCommas (items : List Item) : Text → Text → Prop
  | after (closed : ∀ i ∈ items.getLast?, i.comma.isSome) : ItemCommas items [] [',']
  | before {last : Item} (item : items.getLast? = some last) (bare : last.comma = none) :
      ItemCommas items [','] []

/-- Between the items and a new one stands a comma or nothing. -/
theorem ItemCommas.sep_cases {items : List Item} {sep tail : Text}
    (h : ItemCommas items sep tail) : sep = [] ∨ sep = [','] := by
  cases h with
  | after => exact Or.inl rfl
  | before => exact Or.inr rfl

/-- Behind a new item stands a comma or nothing. -/
theorem ItemCommas.tail_cases {items : List Item} {sep tail : Text}
    (h : ItemCommas items sep tail) : tail = [] ∨ tail = [','] := by
  cases h with
  | after => exact Or.inr rfl
  | before => exact Or.inl rfl

/-- The text `a` ends where the last of the literal's items does, or its opening bracket if it has
none, and `g` is the gap before its closing bracket. -/
structure EndSlot (source : Text) (m : ArrayLiteral) (a g z : Text) : Prop
    extends Slot source a g z where
  close_eq : m.close = (a ++ g).length
  openStop_eq : m.items = [] → m.openStop = a.length
  comma_eq : ∀ last ∈ m.items.getLast?, ∀ comma, last.comma = some comma → comma + 1 = a.length
  stop_eq : ∀ last ∈ m.items.getLast?, last.comma = none → last.stop = a.length

/-- The place behind the last token of a literal is the place for a new item. -/
theorem LastToken.endSlot {source : Text} {before after op I : List Token} {t c : Token}
    {x g y : Text} {m : ArrayLiteral} (ht : LastToken m t)
    (h : Script.Neighbours source before t c after x g y) (hm : Spans op I c m) :
    EndSlot source m (x ++ t.text) g (c.text ++ y) := by
  have hstop := h.stop_eq
  refine ⟨.of_neighbours h hm.closing, ?_, fun hnil => ?_, fun last hlast place hplace => ?_,
    fun last hlast hbare => ?_⟩
  · rw [List.length_append, ← hstop, ← hm.close_eq, h.next_start]
  · cases ht with
    | bracket _ stop => exact stop.symm.trans hstop
    | comma item => simp [hnil] at item
    | value item => simp [hnil] at item
  · cases ht with
    | bracket empty => simp [empty] at hlast
    | comma item place kind =>
      cases item.symm.trans hlast
      cases place.symm.trans hplace
      rw [← hstop, Token.stop, h.spelled [','] (by rw [kind]; rfl)]
      rfl
    | value item bare =>
      cases item.symm.trans hlast
      cases bare.symm.trans hplace
  · cases ht with
    | bracket empty => simp [empty] at hlast
    | comma item place =>
      cases item.symm.trans hlast
      cases place.symm.trans hbare
    | value item _ stop =>
      cases item.symm.trans hlast
      exact stop.symm.trans hstop

/-- **Where an item is put.** Its comma stands before it just in case the last item had none. -/
theorem insertItem_fitted {source : Text} {before after op I : List Token} {t c : Token}
    {x g y : Text} (h : Script.Neighbours source before t c after x g y) {m : ArrayLiteral}
    (hm : Spans op I c m) (ht : LastToken m t) (item : Text) :
    ∃ sep tail, ItemCommas m.items sep tail ∧
      Fitted source sep tail (x ++ t.text) g (c.text ++ y) item (insertItem source m item) ∧
      ∀ w, Script.Exchangeable t c (sep ++ w) := by
  have hslot := ht.endSlot h hm
  unfold insertItem
  cases ht with
  | bracket empty stop fence =>
    rw [empty]
    exact ⟨[], [','], .after fun i hi => absurd hi (by simp),
      hslot.insertIntoEmpty_fitted (hslot.openStop_eq empty) hslot.close_eq item,
      fun _ => Or.inl fence⟩
  | @comma last hlast place kind =>
    rw [hlast]
    rcases hslot.insertAfter_fitted hslot.close_eq (hslot.comma_eq last hlast)
      (hslot.stop_eq last hlast) item with ⟨hs, hfitted⟩ | ⟨hn, -⟩
    · refine ⟨[], [','], .after fun i hi => ?_, hfitted, fun _ => Or.inl (Or.inl kind)⟩
      cases hlast.symm.trans hi
      exact hs
    · cases place.symm.trans hn
  | @value last hlast bare stop =>
    rw [hlast]
    rcases hslot.insertAfter_fitted hslot.close_eq (hslot.comma_eq last hlast)
      (hslot.stop_eq last hlast) item with ⟨hs, -⟩ | ⟨-, hfitted⟩
    · rw [bare] at hs
      cases hs
    · exact ⟨[','], [], .before hlast bare, hfitted, fun _ => Or.inr ⟨⟨_, hm.closing⟩, rfl⟩⟩

/-- The last token before the closing bracket, with its neighbourhood. -/
theorem exists_neighbours {source : Text} {A op I B : List Token} {c r : Token} {m : ArrayLiteral}
    (h : Script.tokenize source = .ok (A ++ (op ++ (I ++ c :: B)))) (hm : Spans op I c m)
    (hr : r ∈ A) (hret : r.isWord "return".toList = true) :
    ∃ us t x g y, op ++ I = us ++ [t] ∧ LastToken m t ∧
      Script.Neighbours source (A ++ us) t c B x g y := by
  obtain ⟨us, t, hus, hlast⟩ := exists_lastToken hm
  have htokens : Script.tokenize source = .ok ((A ++ us) ++ t :: c :: B) := by
    rw [h, ← List.append_assoc op, hus]
    simp only [List.append_assoc, List.cons_append, List.nil_append]
  obtain ⟨x, g, y, hn⟩ := Script.tokenize_around htokens (List.mem_append_left _ hr) hret
  exact ⟨us, t, x, g, y, hus, hlast, hn⟩

/-- The tokens of an item with its commas, the first one at `offset` and the item at `place`. -/
def itemTokens (sep : Text) (offset : Nat) (ps : List Piece) (place : Nat) (tail : Text)
    (length : Nat) : List Token :=
  Token.ofPieces offset (commaPieces sep) ++ (Token.ofPieces place ps ++
    Token.ofPieces (place + length) (commaPieces tail))

/-- **The tokens around an item that is put last.** -/
theorem tokenize_item {source : Text} {A op I B : List Token} {c r : Token} {m : ArrayLiteral}
    (h : Script.tokenize source = .ok (A ++ (op ++ (I ++ c :: B)))) (hm : Spans op I c m)
    (hr : r ∈ A) (hret : r.isWord "return".toList = true) {item : Text} {ps : List Piece}
    (hitem : ∀ v : Text, ¬v.head?.any isWordChar → Cut v item ps) :
    ∃ sep tail a b offset target, ItemCommas m.items sep tail ∧
      Edit.applyAll (insertItem source m item) source = a ++ (item ++ b) ∧
      Script.tokenize (a ++ (item ++ b)) =
        .ok (A ++ (op ++ ((I ++ itemTokens sep offset ps a.length tail item.length) ++
          (c :: B).map (Token.move c.start target)))) ∧
      Patched source (a ++ (item ++ b)) (A ++ (op ++ I)) (c :: B) c.start target := by
  obtain ⟨us, t, x, g, y, hus, hlast, hn⟩ := exists_neighbours h hm hr hret
  obtain ⟨sep, tail, hcommas, hfitted, hexchange⟩ := insertItem_fitted hn hm hlast item
  obtain ⟨g₁, g₂, hresult, h₁, h₂⟩ := hfitted.planned
  have hcut : Cut (tail ++ (g₂ ++ (c.text ++ y))) item ps :=
    hitem _ (hn.not_word hcommas.tail_cases h₂ (Or.inr ⟨_, hm.closing⟩))
  obtain ⟨place, target, hplace, htarget, hfrom⟩ :=
    tokensFrom_planned hcommas.sep_cases hcommas.tail_cases h₁ h₂ hcut hn.rest t.stop
  have hnew := hn.exchange _ (hexchange (g₁ ++ (item ++ (tail ++ (g₂ ++ (c.text ++ y))))))
  rw [hfrom] at hnew
  have hplace' : place = (x ++ t.text ++ (sep ++ g₁)).length := by
    rw [hplace, hn.stop_eq, ← List.length_append]
  have htext : x ++ t.text ++ (sep ++ g₁) ++ (item ++ (tail ++ (g₂ ++ (c.text ++ y)))) =
      x ++ (t.text ++ (sep ++ (g₁ ++ (item ++ (tail ++ (g₂ ++ (c.text ++ y))))))) := by
    simp only [List.append_assoc]
  refine ⟨sep, tail, x ++ t.text ++ (sep ++ g₁), tail ++ (g₂ ++ (c.text ++ y)), t.stop, target,
    hcommas, ?_, ?_, ?_⟩
  · rw [hresult, htext, List.append_assoc]
  · have hbefore : ∀ rest, op ++ (I ++ rest) = us ++ t :: rest := by
      intro rest
      rw [← List.append_assoc, hus, List.append_assoc, List.singleton_append]
    rw [htext, hnew, ← hplace']
    simp only [Except.map, itemTokens, List.append_assoc, hbefore]
  · have hsubset : A ++ (op ++ I) = (A ++ us) ++ [t] := by rw [hus, List.append_assoc]
    rw [hsubset]
    refine ⟨x ++ t.text, g, sep ++ (g₁ ++ (item ++ (tail ++ g₂))), c.text ++ y, ?_, ?_, ?_, ?_,
      hn.stop_le_length, hn.start_le⟩
    · rw [hn.source_eq, List.append_assoc]
    · simp only [List.append_assoc]
    · rw [hn.next_start, hn.stop_eq, ← List.length_append]
    · rw [htarget, hn.stop_eq, ← List.length_append]

/-! ### The section with the item -/

/-- Items with the same keys and values. -/
def SameItems (items items' : List Item) : Prop :=
  List.Forall₂ (fun i i' => i'.key = i.key ∧ i'.value = i.value) items items'

/-- Items are the same as themselves. -/
theorem SameItems.refl (items : List Item) : SameItems items items :=
  List.forall₂_same.2 fun _ _ => ⟨rfl, rfl⟩

/-- The same items, carried to another source text, are twins. -/
theorem SameItems.twin {items items' : List Item} (h : SameItems items items')
    {source source' : Text} (hc : ∀ i ∈ items, Carried source source' 0 0 i.tokens) :
    List.Forall₂ (ItemTwin source source') items items' := by
  induction h with
  | nil => exact .nil
  | cons hi _ ih =>
    obtain ⟨hfirst, hrest⟩ := List.forall_mem_cons.1 hc
    exact .cons (.of_before hfirst hi.1 hi.2) (ih hrest)

/-- One more element is listed after the others. -/
theorem listing_appended {I : List Token} {items : List Item} {key value : Expression}
    (h : Listing I items) {sep tail : Text} (hcommas : ItemCommas items sep tail)
    {ps : List Piece} {place : Nat} (hE : Element (Token.ofPieces place ps) (some key) value)
    (offset length : Nat) : ∃ items' comma,
      Listing (I ++ itemTokens sep offset ps place tail length)
        (items' ++ [⟨some key, value, comma⟩]) ∧ SameItems items items' := by
  cases hcommas with
  | after closed => exact ⟨items, _, h.append closed (.cons hE rfl .nil), .refl items⟩
  | @before last hlast bare =>
    let comma : Token := ⟨.comma, offset, [',']⟩
    let last' : Item := { last with comma := some comma.start }
    have hcomma : Listing (I ++ [comma]) (items.dropLast ++ [last']) := h.appendComma hlast bare rfl
    have hlisting := hcomma.append (by simp [last']) (.last hE)
    refine ⟨items.dropLast ++ [last'], none, ?_, ?_⟩
    · have hempty : Token.ofPieces (place + length) (commaPieces []) = [] := rfl
      rw [itemTokens, hempty, List.append_nil, ← List.append_assoc]
      exact hlisting
    · have hitems := List.dropLast_append_getLast? last hlast
      have hsame : SameItems (items.dropLast ++ [last]) (items.dropLast ++ [last']) :=
        List.rel_append (SameItems.refl _) (.cons ⟨rfl, rfl⟩ .nil)
      rwa [hitems] at hsame

namespace Document

/-- **An item that is put last.** -/
theorem exists_itemLast {document : Document} (hread : document.IsRead) {keys : List Text}
    {m : ArrayLiteral} (hleads : Leads document document.file.root keys m) {kt vt : Text}
    {kps vps : List Piece} (hk : Fragment kt kps) (hv : Fragment vt vps) :
    ∃ document' m' key' value comma place offset,
      document.splice (insertItem document.source m (kt ++ " => ".toList ++ vt)) = .ok document' ∧
      Edited document document' keys m m' ∧ m'.style = m.style ∧
      (∃ before', m'.items = before' ++ [⟨some key', value, comma⟩] ∧
        List.Forall₂ (ItemTwin document.source document'.source) m.items before') ∧
      key'.tokens = Token.ofPieces place kps ∧ value.tokens = Token.ofPieces offset vps ∧
      key'.written document'.source = kt ∧ value.written document'.source = vt := by
  obtain ⟨A, op, I, c, B, htokens, hm, ⟨r, hrA, hr⟩, hedit⟩ := exists_edited hread hleads
  generalize hitem : kt ++ " => ".toList ++ vt = item
  have hcut : ∀ v : Text, ¬v.head?.any isWordChar → Cut v item (itemPieces kps vps) :=
    fun v hw => hitem ▸ cut_item hk hv hw
  obtain ⟨sep, tail, a, b, offset, target, hcommas, hresult, hnew, hpatched⟩ :=
    tokenize_item htokens hm hrA hr hcut
  obtain ⟨key', value, helement, hkt, hvt⟩ := element_item hk hv a.length
  obtain ⟨items', comma, hlisting, hsame⟩ :=
    listing_appended hm.listing hcommas helement offset item.length
  let m' : ArrayLiteral :=
    { m with
      items := items' ++ [⟨some key', value, comma⟩]
      close := (c.move c.start target).start }
  have hm' : Spans op _ (c.move c.start target) m' := ⟨hm.opens, hlisting, hm.closing, rfl⟩
  have hbrackets : A ++ op ⊆ A ++ (op ++ I) := by
    rw [← List.append_assoc]
    exact List.subset_append_left _ _
  obtain ⟨document', hread', hedited⟩ := hedit hnew hm'
    (hpatched.mono hbrackets (List.Subset.refl _))
  have hsource' : document'.source = a ++ (item ++ b) := (read_eq_ok_iff.1 hread').1
  have hcarried : Carried document.source document'.source 0 0 I := by
    rw [hsource']
    exact hpatched.carried_before.mono fun token ht =>
      List.mem_append_right _ (List.mem_append_right _ ht)
  have hsplice : document.splice (insertItem document.source m item) = .ok document' := by
    rw [splice, hresult, hread']
  refine ⟨document', m', key', value, comma, _, _, hsplice, hedited, rfl, ⟨items', rfl, ?_⟩, hkt,
    hvt, ?_, ?_⟩
  · exact hsame.twin fun i hi => hcarried.mono (hm.listing.tokens_subset i hi)
  · rw [hsource', ← hitem, List.append_assoc kt, List.append_assoc kt]
    exact hk.written_eq hkt
  · rw [hsource', ← hitem, List.append_assoc _ vt, ← List.append_assoc a]
    refine hv.written_eq ?_
    rw [List.length_append, hvt]

/-- **An appended item.** -/
theorem exists_appended {document : Document} (hread : document.IsRead) {keys : List Text}
    {m : ArrayLiteral} (hleads : Leads document document.file.root keys m) {key : Text}
    (hmissing : document.matching m (.known key) = []) {kt vt : Text} {kps vps : List Piece}
    (hk : Fragment kt kps) (hv : Fragment vt vps)
    (hkey : ∀ (e : Expression) (offset : Nat) (source : Text),
      e.tokens = Token.ofPieces offset kps → e.evaluate source document.file.names = .known key) :
    ∃ document' m' key' value comma offset,
      document.splice (insertItem document.source m (kt ++ " => ".toList ++ vt)) = .ok document' ∧
      Edited document document' keys m m' ∧
      Appended document document' key m m' ⟨some key', value, comma⟩ ∧
      key'.written document'.source = kt ∧ value.written document'.source = vt ∧
      value.tokens = Token.ofPieces offset vps := by
  obtain ⟨document', m', key', value, comma, place, offset, hsplice, hedited, hstyle, hitems, hkt,
    hvt, hkw, hvw⟩ := exists_itemLast hread hleads hk hv
  refine ⟨document', m', key', value, comma, offset, hsplice, hedited,
    ⟨hstyle, hmissing, ?_, hitems⟩, hkw, hvw, hvt⟩
  simp only [hasKey, Option.any_some, evaluate, hedited.names_eq]
  rw [hkey key' place _ hkt, beq_self_eq_true]

end Document
end Config
end Scaffold

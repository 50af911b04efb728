/-
# Tokens around an edit

Two neighbouring tokens of a source text have a gap between them. What stands after the first of
them may change: if the first is an opening bracket, a comma or an arrow, or if a comma follows,
the tokens up to it are the same (`tokenize_around`), as long as a `return` is among them.
-/

import Scaffold.Proofs.Scan.Opening

namespace Scaffold
namespace Script

/-- The token kinds after which any text may stand. -/
def fenceKind (kind : TokenKind) : Prop :=
  kind = .comma ∨ kind = .doubleArrow ∨ kind = .opening .square ∨ kind = .opening .round

/-- A token after which any text may stand is written with a character that goes on with no
piece. -/
theorem spelling?_of_fenceKind {kind : TokenKind} (h : fenceKind kind) :
    ∃ c more, spelling? kind = some (c :: more) ∧ isFence c = true := by
  rcases h with rfl | rfl | rfl | rfl <;> exact ⟨_, _, rfl, rfl⟩

/-- A closing bracket is one character. -/
theorem spelling?_of_closing (shape : Bracket) :
    ∃ c, spelling? (.closing shape) = some [c] ∧ c ≠ '>' ∧ c ≠ '[' := by
  cases shape <;> exact ⟨_, rfl, by decide, by decide⟩

/-- The text of a token with one spelling. -/
theorem Cut.text_of_spelling? {v u : Text} {kind : TokenKind} {text spelled : Text}
    {ps : List Piece} (h : Cut v u (⟨.token kind, text⟩ :: ps))
    (hs : spelling? kind = some spelled) : text = spelled := by
  cases h with
  | @cons c more u _ _ step inside later =>
    have := spelling?_of_pieceAt step hs
    rwa [List.take_left'] at this
    rfl

/-- A token that is the word `return` is a piece that is. -/
theorem isReturn_piece {token : Token} (h : token.isWord "return".toList = true) :
    token.piece.IsReturn := by
  simp only [Token.isWord, Bool.and_eq_true, beq_iff_eq] at h
  exact ⟨by rw [Token.piece, h.1], h.2⟩

/-- A token among pieces has its piece there. -/
theorem piece_mem_of_mem_ofPieces {offset : Nat} {ps : List Piece} {token : Token}
    (h : token ∈ Token.ofPieces offset ps) : token.piece ∈ ps := by
  obtain ⟨before, after, he⟩ := List.append_of_mem h
  obtain ⟨qs, rs, rfl, -⟩ := Token.ofPieces_eq_append_cons he
  simp

/-- What may stand after the token `t` in place of a text that starts with the token `u`. -/
def Exchangeable (t u : Token) (w : Text) : Prop :=
  fenceKind t.kind ∨ (∃ shape, u.kind = .closing shape) ∧ w.head? = some ','

/-- The tokens `t` and `u` of a source text are neighbours: `x` stands before `t`, the gap `g`
between the two, and `y` after `u`. -/
structure Neighbours (source : Text) (before : List Token) (t u : Token) (after : List Token)
    (x g y : Text) : Prop where
  source_eq : source = x ++ (t.text ++ (g ++ (u.text ++ y)))
  start_eq : t.start = x.length
  next_start : u.start = t.stop + g.length
  gap : Skipped (u.text ++ y) g
  rest : tokensFrom u.start (u.text ++ y) = .ok (u :: after)
  exchange : ∀ w, Exchangeable t u w →
    tokenize (x ++ (t.text ++ w)) = (tokensFrom t.stop w).map (before ++ t :: ·)
  scanned : ∃ found, ∀ w, w = g ++ (u.text ++ y) ∨ Exchangeable t u w →
    scan (x ++ (t.text ++ w)) = (pieces t.stop w).map (found ++ ·)
  startsToken : u.kind ≠ .closeTag → StartsToken (u.text ++ y)
  spelled : ∀ s, spelling? t.kind = some s → t.text = s
  next_spelled : ∀ s, spelling? u.kind = some s → u.text = s
  text_ne_nil : t.text ≠ []
  getLast?_ne : t.text.getLast? ≠ some '\r'
  stop_le : ∀ token ∈ before, token.stop ≤ t.start
  le_start : ∀ token ∈ after, u.stop ≤ token.start

/-- The neighbours of a text that is cut into pieces: `ps` before the token `t`, a gap between it
and the token `u`, and `rs` after that. -/
structure CutAround (t u : Token) (ps rs : List Piece) (a g y : Text) : Prop where
  before : Cut (t.text ++ (g ++ (u.text ++ y))) a ps
  token : Cut (g ++ (u.text ++ y)) t.text [t.piece]
  gap : Skipped (u.text ++ y) g
  rest : ∀ offset, pieces offset (u.text ++ y) = .ok (u.piece :: rs)

namespace CutAround

variable {t u : Token} {ps rs : List Piece} {a g y : Text}

/-- Before a closing bracket stands nothing that would go on with a comment. -/
theorem head?_of_closing (h : CutAround t u ps rs a g y) {shape : Bracket}
    (hclose : u.kind = .closing shape) {d : Char} (hd : (g ++ (u.text ++ y)).head? = some d) :
    d ≠ '>' ∧ d ≠ '[' := by
  rcases h.gap.head_cases with rfl | ⟨e, g', rfl, he⟩
  · obtain ⟨e, rest, n, hutext, hstep, hue⟩ := pieceAt_of_pieces (h.rest 0)
    obtain ⟨c, hs, hc⟩ := spelling?_of_closing shape
    have he := spelling?_of_pieceAt hstep (show spelling? u.kind = some [c] from hclose ▸ hs)
    rw [List.nil_append, hutext, List.head?_cons, Option.some.injEq] at hd
    rw [← hd, (List.cons.inj he).1]
    exact hc
  · obtain rfl : e = d := by simpa using hd
    rcases he with hgap | rfl | rfl
    · refine ⟨?_, ?_⟩ <;> rintro rfl <;> cases hgap
    · decide
    · decide

/-- The pieces up to `t` are the same before another text. -/
theorem exchange (h : CutAround t u ps rs a g y) {w : Text} (hw : Exchangeable t u w) :
    Cut w (a ++ t.text) (ps ++ [t.piece]) := by
  have hold : Cut (g ++ (u.text ++ y)) (a ++ t.text) (ps ++ [t.piece]) := h.before.append h.token
  rcases hw with hfence | ⟨⟨shape, hclose⟩, hcomma⟩
  · obtain ⟨c, more, hs, hc⟩ := spelling?_of_fenceKind hfence
    have htext : t.text = c :: more := h.token.text_of_spelling? hs
    have hinside : t.kind ≠ .closeTag := by
      rintro he
      rcases hfence with hk | hk | hk | hk <;> rw [he] at hk <;> cases hk
    have hbefore := h.before
    rw [htext] at hbefore
    rw [Token.piece, htext]
    have hcut : Cut (c :: more ++ w) a ps := by
      refine hbefore.refence rfl hc ?_ ?_ (Or.inr rfl)
      · rcases fence_cases hc with rfl | rfl | rfl | rfl <;> simp
      · simp
    exact hcut.append (.spelling hs hinside w)
  · refine hold.refence hcomma rfl (fun hd => (h.head?_of_closing hclose hd).1 rfl)
      (fun hd => absurd rfl (h.head?_of_closing hclose hd).2) (Or.inl ⟨t.piece, t.kind, ?_, rfl⟩)
    rw [List.getLast?_concat]

end CutAround

/-- The pieces from a token on: the token, the gap behind it, and those from the next token on. -/
theorem cut_gap_of_pieces {offset : Nat} {v : Text} {t u : Token} {gs rs : List Piece}
    (hv : pieces offset v = .ok (t.piece :: (gs ++ u.piece :: rs))) :
    ∃ y, v = t.text ++ (textOf gs ++ (u.text ++ y)) ∧
      Cut (textOf gs ++ (u.text ++ y)) t.text [t.piece] ∧ Cut (u.text ++ y) (textOf gs) gs ∧
      ∀ offset, pieces offset (u.text ++ y) = .ok (u.piece :: rs) := by
  obtain ⟨b, v, rfl, hb, hv'⟩ := cut_of_pieces
    (show pieces _ v = .ok ((t.piece :: gs) ++ u.piece :: rs) from hv) (by simp [Token.piece])
  obtain ⟨b, g, rfl, hbt, hg⟩ := (show Cut v b ([t.piece] ++ gs) from hb).split
  obtain rfl : t.text = b := by simpa [Token.piece] using hbt.textOf_eq
  obtain rfl : textOf gs = g := hg.textOf_eq
  obtain ⟨y, rfl⟩ : ∃ y, v = u.text ++ y := ⟨textOf rs, (flatten_pieces hv').symm⟩
  exact ⟨y, List.append_assoc _ _ _, hbt, hg, pieces_offset hv'⟩

/-- The pieces before a token, the token, the gap behind it and the next token. -/
theorem cutAround_of_pieces {offset : Nat} {v a : Text} {t u : Token} {ps gs rs : List Piece}
    (ha : Cut v a ps) (hv : pieces offset v = .ok (t.piece :: (gs ++ u.piece :: rs)))
    (hgs : ∀ p ∈ gs, ∀ kind, p.kind ≠ .token kind) :
    ∃ g y, v = t.text ++ (g ++ (u.text ++ y)) ∧ g = textOf gs ∧ CutAround t u ps rs a g y := by
  obtain ⟨y, rfl, htoken, hgap, hrest⟩ := cut_gap_of_pieces hv
  exact ⟨textOf gs, y, rfl, rfl, ha, htoken, ⟨gs, hgap, hgs⟩, hrest⟩

/-- The gap between two neighbouring tokens of a source text, and its pieces among those of the
text. -/
theorem exists_gap {source : Text} {before after : List Token} {t u : Token}
    (h : tokenize source = .ok (before ++ t :: u :: after)) (ht : t.kind ≠ .openTag) :
    ∃ ps gs rs y, scan source = .ok (ps ++ t.piece :: (gs ++ u.piece :: rs)) ∧
      source = textOf ps ++ (t.text ++ (textOf gs ++ (u.text ++ y))) ∧
      t.start = (textOf ps).length ∧ u.start = t.stop + (textOf gs).length ∧ t.text ≠ [] ∧
      Cut (u.text ++ y) (textOf gs) gs ∧ ∀ p ∈ gs, ∀ kind, p.kind ≠ .token kind := by
  obtain ⟨found, hscan, htokens⟩ := map_eq_ok_iff.1 h
  obtain ⟨ps, later, rfl, -, hstart, hlater⟩ := Token.ofPieces_eq_append_cons htokens
  obtain ⟨gs, rs, rfl, hgs, hnext, -⟩ := Token.ofPieces_eq_append_cons
    (show Token.ofPieces t.stop later = [] ++ u :: after from hlater)
  rw [Nat.zero_add] at hstart
  obtain ⟨v, rfl, hv⟩ := pieces_of_scan hscan nofun (fun hk => ht (PieceKind.token.inj hk)) nofun
  obtain ⟨e, more, n, -, -, htext⟩ := pieceAt_of_pieces hv
  obtain ⟨y, rfl, -, hgap, -⟩ := cut_gap_of_pieces hv
  have hne : t.text ≠ [] := by
    rw [show t.text = e :: more.take n from htext]
    exact List.cons_ne_nil _ _
  exact ⟨ps, gs, rs, y, hscan, rfl, hstart, hnext, hne, hgap,
    (Token.ofPieces_eq_nil_iff t.stop).1 hgs⟩

section
variable {found : List Piece} {before : List Token} {t : Token} {x w : Text}

/-- One more token behind pieces that are scanned before every text. -/
theorem scan_token {head ps : List Piece} {a v : Text} (ha : Cut v a ps)
    (hedit : ∀ w, Cut w a ps → scan (x ++ w) = (pieces t.start w).map ((head ++ ps) ++ ·))
    (hw : Cut w (a ++ t.text) (ps ++ [t.piece])) :
    scan (x ++ (t.text ++ w)) = (pieces t.stop w).map ((head ++ ps) ++ [t.piece] ++ ·) := by
  obtain ⟨a', b', he, ha', hb'⟩ := hw.split
  obtain rfl : a = a' := by rw [← ha.textOf_eq, ha'.textOf_eq]
  obtain rfl := List.append_cancel_left he
  have hstop : t.stop = t.start + t.text.length := rfl
  rw [hedit (t.text ++ w) ha', hb'.pieces_append, ← hstop]
  cases pieces t.stop w with
  | error => rfl
  | ok found => simp only [Except.map, List.append_assoc]

/-- The tokens of the pieces up to `t` and of what follows. -/
theorem tokenize_token
    (hscan : scan (x ++ (t.text ++ w)) = (pieces t.stop w).map (found ++ [t.piece] ++ ·))
    (hbefore : Token.ofPieces 0 found = before) (hstart : t.start = (textOf found).length) :
    tokenize (x ++ (t.text ++ w)) = (tokensFrom t.stop w).map (before ++ t :: ·) := by
  rw [tokenize, hscan, tokensFrom]
  cases pieces t.stop w with
  | error => rfl
  | ok later =>
    simp only [Except.map, List.append_assoc _ [t.piece], List.singleton_append]
    rw [Token.ofPieces_append, hbefore, Nat.zero_add, ← hstart, Token.piece,
      Token.ofPieces_cons_token]
    rfl

end

/-- **Tokens around an edit.** -/
theorem tokenize_around {source : Text} {before after : List Token} {t u r : Token}
    (h : tokenize source = .ok (before ++ t :: u :: after)) (hr : r ∈ before)
    (hret : r.isWord "return".toList = true) :
    ∃ x g y, Neighbours source before t u after x g y := by
  obtain ⟨found, hscan, htokens⟩ := map_eq_ok_iff.1 h
  -- the pieces before the first token, between the two, and after the second
  obtain ⟨qs, ps, rfl, hqs, htstart, hps⟩ := Token.ofPieces_eq_append_cons htokens
  obtain ⟨gs, rs, rfl, hgs, hustart, hrs⟩ := Token.ofPieces_eq_append_cons
    (show Token.ofPieces t.stop ps = [] ++ u :: after from hps)
  rw [Nat.zero_add] at htstart
  rw [Token.ofPieces_eq_nil_iff] at hgs
  have hmem : r.piece ∈ qs := piece_mem_of_mem_ofPieces (hqs ▸ hr)
  obtain ⟨head, ps, a, v, rfl, rfl, ha, hv, hedit⟩ :=
    scan_split hscan (by simp [Token.piece]) hmem (isReturn_piece hret)
  have hx : textOf (head ++ ps) = textOf head ++ a := by rw [textOf_append, ha.textOf_eq]
  obtain ⟨g, y, rfl, rfl, hcut⟩ := cutAround_of_pieces ha hv hgs
  rw [hx] at htstart hedit
  obtain ⟨e, rest, n, htext, hstep, hte⟩ := pieceAt_of_pieces hv
  obtain ⟨e', rest', n', hutext, hustep, hue⟩ := pieceAt_of_pieces (hcut.rest 0)
  have hscanned : ∀ w, Cut w (a ++ t.text) (ps ++ [t.piece]) →
      scan (textOf head ++ a ++ (t.text ++ w)) =
        (pieces t.stop w).map ((head ++ ps) ++ [t.piece] ++ ·) := fun w hw => by
    refine scan_token ha (fun v hv => ?_) hw
    rw [List.append_assoc, hedit v hv, htstart]
  have hte : t.text = e :: rest.take n := hte
  have hue : u.text = e' :: rest'.take n' := hue
  exact ⟨textOf head ++ a, textOf gs, y, {
    source_eq := by rw [List.append_assoc]
    start_eq := htstart
    next_start := hustart
    gap := hcut.gap
    rest := by
      have hfrom : tokensFrom (t.stop + (textOf gs).length) (u.text ++ y) =
          .ok (Token.ofPieces (t.stop + (textOf gs).length) (u.piece :: rs)) := by
        rw [tokensFrom, hcut.rest]
        rfl
      rw [hustart, hfrom, ← hrs, Token.piece, Token.ofPieces_cons_token, ← hustart]
      rfl
    exchange := fun w hw => tokenize_token (hscanned w (hcut.exchange hw)) hqs (hx ▸ htstart)
    scanned := by
      refine ⟨(head ++ ps) ++ [t.piece], fun w hw => hscanned w ?_⟩
      rcases hw with rfl | hw
      · exact hcut.before.append hcut.token
      · exact hcut.exchange hw
    startsToken := fun hk => ⟨e', rest', u.kind, n', hutext, hustep, hk⟩
    spelled := fun s hs => hcut.token.text_of_spelling? hs
    next_spelled := fun s hs => by rw [hue, spelling?_of_pieceAt hustep hs]
    text_ne_nil := by
      rw [hte]
      exact List.cons_ne_nil _ _
    getLast?_ne := by
      rw [hte]
      exact pieceAt_getLast?_ne hstep
    stop_le := fun token htoken => by
      have := (Token.bounds_of_mem_ofPieces (hqs ▸ htoken)).2
      rw [hx, Nat.zero_add] at this
      omega
    le_start := fun token htoken => (Token.bounds_of_mem_ofPieces (hrs ▸ htoken)).1 }⟩

namespace Neighbours

variable {source : Text} {before after : List Token} {t u : Token} {x g y : Text}

/-- The first of two neighbours stops behind its text. -/
theorem stop_eq (h : Neighbours source before t u after x g y) : t.stop = (x ++ t.text).length := by
  rw [Token.stop, h.start_eq, List.length_append]

/-- Behind the first of two neighbours stand the gap, the second one and the rest. -/
theorem drop_stop (h : Neighbours source before t u after x g y) :
    source.drop t.stop = g ++ (u.text ++ y) := by
  rw [h.source_eq, ← List.append_assoc x, List.drop_left' h.stop_eq.symm]

/-- The second of two neighbours starts behind the gap. -/
theorem next_start_eq (h : Neighbours source before t u after x g y) :
    u.start = (x ++ (t.text ++ g)).length := by
  rw [h.next_start, h.stop_eq, ← List.length_append, List.append_assoc]

/-- Before the second of two neighbours stand the first one and the gap. -/
theorem take_start (h : Neighbours source before t u after x g y) :
    source.take u.start = x ++ (t.text ++ g) := by
  rw [h.source_eq, ← List.append_assoc t.text, ← List.append_assoc x,
    List.take_left' h.next_start_eq.symm]

/-- From the start of the second of two neighbours on stand it and the rest. -/
theorem drop_start (h : Neighbours source before t u after x g y) :
    source.drop u.start = u.text ++ y := by
  rw [h.source_eq, ← List.append_assoc t.text, ← List.append_assoc x,
    List.drop_left' h.next_start_eq.symm]

/-- The second of two neighbours starts within the source. -/
theorem start_le_length (h : Neighbours source before t u after x g y) :
    u.start ≤ source.length := by
  rw [h.next_start_eq, h.source_eq]
  simp only [List.length_append]
  omega

/-- The tokens up to the first neighbour stand before the gap. -/
theorem stop_le_length (h : Neighbours source before t u after x g y) :
    ∀ token ∈ before ++ [t], token.stop ≤ (x ++ t.text).length := by
  intro token htoken
  rw [← h.stop_eq]
  rcases List.mem_append.1 htoken with hmem | hmem
  · have := h.stop_le token hmem
    simp only [Token.stop] at this ⊢
    omega
  · rw [List.mem_singleton.1 hmem]

/-- The tokens from the second neighbour on stand behind the gap. -/
theorem start_le (h : Neighbours source before t u after x g y) :
    ∀ token ∈ u :: after, u.start ≤ token.start := by
  refine List.forall_mem_cons.2 ⟨Nat.le_refl _, fun token htoken => ?_⟩
  have := h.le_start token htoken
  simp only [Token.stop] at this
  omega

/-- No word goes on before a comma, a gap or a closing bracket. -/
theorem not_word (h : Neighbours source before t u after x g y) {tail g' : Text}
    (htail : tail = [] ∨ tail = [',']) (hg : Skipped (u.text ++ y) g')
    (hu : u.kind = .comma ∨ ∃ shape, u.kind = .closing shape) :
    ¬(tail ++ (g' ++ (u.text ++ y))).head?.any isWordChar := by
  rcases htail with rfl | rfl
  · rcases hg.head_cases with rfl | ⟨c, w, rfl, hc⟩
    · rcases hu with hu | ⟨shape, hu⟩
      · rw [h.next_spelled [','] (by rw [hu]; rfl)]
        simp [isWordChar]
      · obtain ⟨c, hs, -⟩ := spelling?_of_closing shape
        rw [h.next_spelled [c] (by rw [hu]; exact hs)]
        cases shape <;> cases hs <;> simp [isWordChar]
    · simp only [List.nil_append, List.cons_append, List.head?_cons, Option.any_some]
      rcases hc with hgap | rfl | rfl
      · intro hw
        rw [isGap_of_isWordChar hw] at hgap
        cases hgap
      · decide
      · decide
  · simp [isWordChar]

end Neighbours

end Script
end Scaffold

/-
# Looking for comments a second time

`lastCommentEnd` goes over a part of a source text that the scanner has been over before, in steps
of its own. Where the scanner has found no token in that part, both find the same comments: the
result is the end of the last one (`Cut.commentEndFrom_eq`), and the text behind it is white space
(`exists_behind_comments`). That a comment opener may stand inside another comment, and what ends a
line comment, needs no argument of its own, since both look at the same characters from the same
positions on. Between the brackets of a literal without items there is no token, so there the two
agree (`lastCommentEnd_scanned`).
-/

import Mathlib.Data.List.Induction
import Scaffold.Proofs.Literal.Spans
import Scaffold.Proofs.Scan.Around
import Scaffold.Proofs.Scan.Trivia

namespace Scaffold
namespace Script

/-! ### Where comments stand -/

/-- Where a part of a text starts and where it ends. -/
structure Extent where
  start : Nat
  stop : Nat
deriving DecidableEq, Repr

/-- The extents of the comments among the pieces of a text that starts at position `offset`. -/
def commentExtents (offset : Nat) : List Piece → List Extent
  | [] => []
  | piece :: rest =>
    let later := commentExtents (offset + piece.text.length) rest
    if piece.kind = .comment then ⟨offset, offset + piece.text.length⟩ :: later else later

/-- A comment has its extent before those of the pieces behind it. -/
theorem commentExtents_comment (offset : Nat) (text : Text) (ps : List Piece) :
    commentExtents offset (⟨.comment, text⟩ :: ps) =
      ⟨offset, offset + text.length⟩ :: commentExtents (offset + text.length) ps := rfl

/-- Other pieces have no extent. -/
theorem commentExtents_other (offset : Nat) {p : Piece} (h : p.kind ≠ .comment) (ps : List Piece) :
    commentExtents offset (p :: ps) = commentExtents (offset + p.text.length) ps := if_neg h

/-- The extents of pieces that follow others. -/
theorem commentExtents_append (offset : Nat) (ps qs : List Piece) :
    commentExtents offset (ps ++ qs) =
      commentExtents offset ps ++ commentExtents (offset + (textOf ps).length) qs := by
  induction ps generalizing offset with
  | nil => rfl
  | cons p ps ih =>
    rw [List.cons_append, commentExtents, commentExtents, ih, textOf_cons, List.length_append,
      Nat.add_assoc]
    split <;> rfl

/-- Comments stand within the text of the pieces, and each is as long as its piece. -/
theorem bounds_of_mem_commentExtents {offset : Nat} {ps : List Piece} {e : Extent}
    (h : e ∈ commentExtents offset ps) :
    offset ≤ e.start ∧ e.stop ≤ offset + (textOf ps).length ∧
      ∃ p ∈ ps, e.stop = e.start + p.text.length := by
  induction ps generalizing offset with
  | nil => cases h
  | cons p ps ih =>
    rw [textOf_cons, List.length_append]
    have hlater : e ∈ commentExtents (offset + p.text.length) ps → offset ≤ e.start ∧
        e.stop ≤ offset + (p.text.length + (textOf ps).length) ∧
        ∃ q ∈ p :: ps, e.stop = e.start + q.text.length := by
      intro hmem
      obtain ⟨hstart, hstop, q, hq, hlength⟩ := ih hmem
      exact ⟨by omega, by omega, q, List.mem_cons_of_mem _ hq, hlength⟩
    rw [commentExtents] at h
    split at h
    · rcases List.mem_cons.1 h with rfl | hmem
      · exact ⟨Nat.le_refl _, by simp only; omega, p, List.mem_cons_self, rfl⟩
      · exact hlater hmem
    · exact hlater h

/-- The end of the last comment among the pieces of a text that starts at position `offset`; `last`
where there is none. -/
def lastStop (last offset : Nat) (ps : List Piece) : Nat :=
  ((commentExtents offset ps).getLast?.map Extent.stop).getD last

/-- A comment is the last one until another follows. -/
theorem lastStop_comment (last offset : Nat) (text : Text) (ps : List Piece) :
    lastStop last offset (⟨.comment, text⟩ :: ps) =
      lastStop (offset + text.length) (offset + text.length) ps := by
  rw [lastStop, lastStop, commentExtents_comment, List.getLast?_cons]
  cases (commentExtents (offset + text.length) ps).getLast? <;> rfl

/-- Other pieces leave the last comment as it is. -/
theorem lastStop_other (last offset : Nat) {p : Piece} (h : p.kind ≠ .comment) (ps : List Piece) :
    lastStop last offset (p :: ps) = lastStop last (offset + p.text.length) ps := by
  rw [lastStop, lastStop, commentExtents_other offset h]

/-- Behind the last comment a gap is white space. -/
theorem exists_behind_comments {gs : List Piece}
    (h : ∀ p ∈ gs, p.kind = .blank ∨ p.kind = .comment) :
    ∃ ps qs, gs = ps ++ qs ∧ (∀ p ∈ qs, p.kind = .blank) ∧
      ∀ offset, lastStop offset offset gs = offset + (textOf ps).length := by
  induction gs using List.reverseRecOn with
  | nil => exact ⟨[], [], rfl, fun p hp => absurd hp List.not_mem_nil, fun _ => rfl⟩
  | append_singleton gs p ih =>
    obtain ⟨hgs, hp⟩ := List.forall_mem_append.1 h
    rcases List.forall_mem_singleton.1 hp with hblank | hcomment
    · obtain ⟨ps, qs, rfl, hqs, hstop⟩ := ih hgs
      refine ⟨ps, qs ++ [p], List.append_assoc .., ?_, fun offset => ?_⟩
      · exact List.forall_mem_append.2 ⟨hqs, List.forall_mem_singleton.2 hblank⟩
      · have hnone : commentExtents (offset + (textOf (ps ++ qs)).length) [p] = [] :=
          commentExtents_other _ (by rw [hblank]; exact nofun) []
        rw [← hstop, lastStop, lastStop, commentExtents_append, hnone, List.append_nil]
    · refine ⟨gs ++ [p], [], (List.append_nil _).symm, fun q hq => absurd hq List.not_mem_nil,
        fun offset => ?_⟩
      have hone : commentExtents (offset + (textOf gs).length) [p] =
          [⟨offset + (textOf gs).length, offset + (textOf gs).length + p.text.length⟩] :=
        if_pos hcomment
      rw [lastStop, commentExtents_append, hone, List.getLast?_concat, textOf_append, textOf_cons,
        textOf_nil, List.append_nil, List.length_append, ← Nat.add_assoc]
      rfl

/-! ### The second look -/

/-- White space starts no comment. -/
theorem startsComment_of_isGap {c : Char} (h : isGap c = true) (rest : Text) :
    startsComment c rest = false := by
  unfold startsComment
  split
  · rename_i hc
    subst hc
    cases h
  · rw [Bool.and_eq_false_iff]
    left
    rw [decide_eq_false_iff_not]
    rintro rfl
    cases h

/-- A comment is found where one starts, and is as long as that says. -/
theorem comment_of_pieceAt {c : Char} {rest : Text} {n : Nat}
    (h : pieceAt c rest = .ok (.comment, n)) :
    startsComment c rest = true ∧ commentLength c rest = some n := by
  have hshape := pieceShape_of_pieceAt h
  generalize hk : PieceKind.comment = kind at hshape
  cases hshape with
  | comment starts length => exact ⟨starts, length⟩
  | _ => cases hk

/-- No comment starts behind the limit. -/
theorem commentEndFrom_of_le {limit place : Nat} (h : limit ≤ place) (last : Nat) (text : Text) :
    commentEndFrom limit last place text = some last := by
  cases text with
  | nil => rw [commentEndFrom]
  | cons c rest => rw [commentEndFrom, if_pos h]

/-- Over white space the search goes on. -/
theorem commentEndFrom_blank {limit place : Nat} (h : place < limit) (last : Nat) {c : Char}
    (hc : isGap c = true) (rest : Text) :
    commentEndFrom limit last place (c :: rest) = commentEndFrom limit last (place + 1) rest := by
  rw [commentEndFrom, if_neg (Nat.not_le.2 h), if_neg]
  rw [startsComment_of_isGap hc]
  exact Bool.false_ne_true

/-- A comment that ends before the limit is found, and the search goes on behind it. -/
theorem commentEndFrom_comment {limit place : Nat} {c : Char} {more u : Text}
    (step : pieceAt c (more ++ u) = .ok (.comment, more.length))
    (h : place + (c :: more).length ≤ limit) (last : Nat) :
    commentEndFrom limit last place (c :: (more ++ u)) =
      commentEndFrom limit (place + (c :: more).length) (place + (c :: more).length) u := by
  obtain ⟨hstarts, hlength⟩ := comment_of_pieceAt step
  have hstop : place + 1 + more.length = place + (c :: more).length := by
    rw [List.length_cons]
    omega
  have hplace : place < place + (c :: more).length := Nat.lt_add_of_pos_right (Nat.succ_pos _)
  rw [commentEndFrom, if_neg (Nat.not_le.2 (hplace.trans_le h)), if_pos hstarts, hlength]
  simp only [List.drop_left, hstop]
  rw [Nat.min_eq_left h]

/-- The pieces of a gap are white space and comments. -/
theorem Cut.kind_cases {v u : Text} {gs : List Piece} (h : Cut v u gs)
    (hk : ∀ p ∈ gs, ∀ kind, p.kind ≠ .token kind) :
    ∀ p ∈ gs, p.kind = .blank ∨ p.kind = .comment := by
  induction h with
  | nil => exact fun p hp => absurd hp List.not_mem_nil
  | cons step inside later ih =>
    obtain ⟨hfirst, hrest⟩ := List.forall_mem_cons.1 hk
    exact List.forall_mem_cons.2
      ⟨(pieceShape_gap step hfirst).imp And.left And.left, ih hrest⟩

/-- White space pieces are white space. -/
theorem Cut.isGap {v u : Text} {gs : List Piece} (h : Cut v u gs) (hk : ∀ p ∈ gs, p.kind = .blank) :
    ∀ c ∈ u, isGap c = true := by
  induction h with
  | nil => exact fun c hc => absurd hc List.not_mem_nil
  | cons step inside later ih =>
    obtain ⟨hfirst, hrest⟩ := List.forall_mem_cons.1 hk
    obtain rfl := hfirst
    rcases pieceShape_gap step nofun with ⟨-, hlength, hgap⟩ | ⟨hcomment, -⟩
    · obtain rfl := List.length_eq_zero_iff.1 hlength
      exact List.forall_mem_cons.2 ⟨hgap, ih hrest⟩
    · cases hcomment

/-- **Over a gap the search finds the last comment that the scanner has skipped.** -/
theorem Cut.commentEndFrom_eq {v u : Text} {gs : List Piece} (h : Cut v u gs)
    (hk : ∀ p ∈ gs, ∀ kind, p.kind ≠ .token kind) (last place : Nat) :
    commentEndFrom (place + u.length) last place (u ++ v) = some (lastStop last place gs) := by
  induction h generalizing last place with
  | nil => exact commentEndFrom_of_le (Nat.le_refl _) last v
  | @cons c more u kind ps step inside later ih =>
    obtain ⟨hfirst, hrest⟩ := List.forall_mem_cons.1 hk
    have hlimit : place + (c :: (more ++ u)).length = place + (c :: more).length + u.length := by
      simp only [List.length_cons, List.length_append]
      omega
    rw [List.cons_append, List.append_assoc, hlimit]
    rcases pieceShape_gap step hfirst with ⟨rfl, hlength, hgap⟩ | ⟨rfl, -⟩
    · obtain rfl := List.length_eq_zero_iff.1 hlength
      have hother : (⟨.blank, [c]⟩ : Piece).kind ≠ .comment := nofun
      have hplace : place < place + [c].length + u.length := by
        rw [List.length_singleton]
        omega
      rw [List.nil_append, commentEndFrom_blank hplace last hgap, lastStop_other last place hother]
      exact ih hrest last (place + 1)
    · rw [commentEndFrom_comment step (Nat.le_add_right _ _), lastStop_comment]
      exact ih hrest _ _

/-- **Behind the last comment a gap is white space**, and the search for comments ends there. -/
theorem Cut.exists_behind_comments {z g : Text} {gs : List Piece} (h : Cut z g gs)
    (hk : ∀ p ∈ gs, ∀ kind, p.kind ≠ .token kind) :
    ∃ ga gb, g = ga ++ gb ∧ Skipped (gb ++ z) ga ∧ (∀ c ∈ gb, Script.isGap c = true) ∧
      ∀ place, lastStop place place gs = place + ga.length ∧
        commentEndFrom (place + g.length) place place (g ++ z) = some (place + ga.length) := by
  obtain ⟨ps, qs, rfl, hblank, hstop⟩ := Script.exists_behind_comments (h.kind_cases hk)
  have hfound := h.commentEndFrom_eq hk
  obtain ⟨ga, gb, rfl, ha, hb⟩ := h.split
  refine ⟨ga, gb, rfl, ⟨ps, ha, fun p hp => hk p (List.mem_append_left _ hp)⟩, hb.isGap hblank,
    fun place => ?_⟩
  have hplace : lastStop place place (ps ++ qs) = place + ga.length := by
    rw [hstop, ha.textOf_eq]
  exact ⟨hplace, by rw [hfound, hplace]⟩

/-- A gap can be cut behind its last comment, where the search for comments ends. -/
theorem lastCommentEnd_split {z g : Text} (h : Skipped z g) :
    ∃ ga gb, g = ga ++ gb ∧ Skipped (gb ++ z) ga ∧ (∀ c ∈ gb, isGap c = true) ∧
      ∀ a : Text, lastCommentEnd (a ++ (g ++ z)) a.length (a ++ g).length = (a ++ ga).length := by
  obtain ⟨gs, hgs, hk⟩ := h
  obtain ⟨ga, gb, hg, ha, hb, hend⟩ := hgs.exists_behind_comments hk
  refine ⟨ga, gb, hg, ha, hb, fun a => ?_⟩
  rw [lastCommentEnd, List.drop_left, List.length_append, (hend a.length).2, Option.getD_some,
    List.length_append]

/-! ### The comments of a literal without items -/

/-- The extents of the comments that start between two positions of a text with the given
pieces. -/
def commentsBetween (start stop : Nat) (ps : List Piece) : List Extent :=
  (commentExtents 0 ps).filter fun e => start ≤ e.start ∧ e.start < stop

/-- No piece of a cut is empty. -/
theorem Cut.length_text_pos {v u : Text} {ps : List Piece} (h : Cut v u ps) :
    ∀ p ∈ ps, 0 < p.text.length := by
  induction h with
  | nil => exact fun p hp => absurd hp List.not_mem_nil
  | cons step inside later ih => exact List.forall_mem_cons.2 ⟨Nat.succ_pos _, ih⟩

/-- The comments that start between two neighbouring tokens are those of the gap between them. -/
theorem commentsBetween_gap {v : Text} {t : Token} {ps gs : List Piece}
    (hstart : t.start = (textOf ps).length) (ht : t.text ≠ []) (hgs : Cut v (textOf gs) gs)
    (u : Token) (rs : List Piece) :
    commentsBetween t.stop (t.stop + (textOf gs).length) (ps ++ t.piece :: (gs ++ u.piece :: rs)) =
      commentExtents t.stop gs := by
  have hpiece : t.piece.kind ≠ .comment := by
    intro h
    cases h
  have hsplit : commentExtents 0 (ps ++ t.piece :: (gs ++ u.piece :: rs)) = commentExtents 0 ps ++
      (commentExtents t.stop gs ++
        commentExtents (t.stop + (textOf gs).length) (u.piece :: rs)) := by
    rw [commentExtents_append, Nat.zero_add, ← hstart, commentExtents_other _ hpiece,
      commentExtents_append]
    rfl
  have hpos : t.start < t.stop := Nat.lt_add_of_pos_right (List.length_pos_iff.2 ht)
  rw [commentsBetween, hsplit, List.filter_append, List.filter_append, List.filter_eq_nil_iff.2,
    List.filter_eq_self.2, List.filter_eq_nil_iff.2, List.append_nil, List.nil_append]
  · intro e he
    have hbehind := (bounds_of_mem_commentExtents he).1
    simp only [decide_eq_true_eq]
    omega
  · intro e he
    obtain ⟨hfirst, hlast, p, hp, hlength⟩ := bounds_of_mem_commentExtents he
    have hne := hgs.length_text_pos p hp
    simp only [decide_eq_true_eq]
    omega
  · intro e he
    obtain ⟨-, hlast, p, -, hlength⟩ := bounds_of_mem_commentExtents he
    simp only [decide_eq_true_eq]
    omega

/-- **The search for the last comment agrees with the scanner.**  Between the brackets of an array
literal without items, wherever it stands among the tokens of a source text, the search meets no
comment without an end. It gives the end of the last comment that the scanner has skipped there,
or the end of the opening bracket where there is none; each of these comments ends before the
closing bracket, and behind the last one there is white space only. -/
theorem lastCommentEnd_scanned {source : Text} {tokens rest : List Token} {index : Nat}
    {literal : ArrayLiteral} (htokens : tokenize source = .ok tokens)
    (hread : ArrayLiteral.read? (tokens.drop index) = .ok (some (literal, rest)))
    (hempty : literal.items = []) :
    ∃ ps found, scan source = .ok ps ∧
      commentEndFrom literal.close literal.openStop literal.openStop
        (source.drop literal.openStop) = some found ∧
      lastCommentEnd source literal.openStop literal.close = found ∧
      found = ((commentsBetween literal.openStop literal.close ps).getLast?.map Extent.stop).getD
        literal.openStop ∧
      (∀ e ∈ commentsBetween literal.openStop literal.close ps, e.stop ≤ literal.close) ∧
      literal.openStop ≤ found ∧ found ≤ literal.close ∧
      ∀ c ∈ source.slice found literal.close, c ∈ whiteSpace := by
  obtain ⟨op, I, c, hdrop, hspans⟩ := read?_eq_some_iff.1 hread
  obtain rfl : I = [] := hspans.listing.eq_nil_iff.2 hempty
  obtain ⟨us, bracket, rfl, hopen, hkind⟩ := hspans.opens.exists_stop_eq
  -- the two brackets are neighbours
  have hsplit : tokens = (tokens.take index ++ us) ++ bracket :: c :: rest := by
    rw [List.append_assoc, ← List.singleton_append, ← List.append_assoc us]
    exact (List.take_append_drop index tokens).symm.trans (congrArg _ hdrop)
  rw [hsplit] at htokens
  obtain ⟨ps, gs, rs, y, hscan, hsource, hstart, hnext, hne, hgs, hk⟩ :=
    exists_gap htokens (by rw [hkind]; exact nofun)
  obtain ⟨ga, gb, hg, -, hb, hend⟩ := hgs.exists_behind_comments hk
  obtain ⟨hstop, hfound⟩ := hend bracket.stop
  have hx : (textOf ps ++ bracket.text).length = bracket.stop := by
    rw [List.length_append, ← hstart]
    rfl
  have hrest : source.drop bracket.stop = textOf gs ++ (c.text ++ y) := by
    rw [hsource, ← List.append_assoc, List.drop_left' hx]
  have hcomments := commentsBetween_gap hstart hne hgs c rs
  rw [← hopen, ← hspans.close_eq, hnext]
  refine ⟨_, bracket.stop + ga.length, hscan, by rw [hrest, hfound], ?_, ?_, ?_, ?_, ?_, ?_⟩
  · rw [lastCommentEnd, hrest, hfound, Option.getD_some]
  · rw [hcomments, ← hstop, lastStop]
  · rw [hcomments]
    exact fun e he => (bounds_of_mem_commentExtents he).2.1
  · exact Nat.le_add_right _ _
  · rw [hg, List.length_append]
    omega
  · have hslice : source.slice (bracket.stop + ga.length) (bracket.stop + (textOf gs).length) =
        gb := by
      rw [Text.slice, ← List.drop_drop, hrest, hg, List.append_assoc, List.drop_left,
        List.length_append, ← Nat.add_assoc, Nat.add_sub_cancel_left, List.take_left]
    rw [hslice]
    exact fun d hd => isGap_iff_mem.1 (hb d hd)

/-- Comment openers inside comments, a bracket at the end of one, and carriage returns that belong
to them. -/
theorem lastCommentEnd_scanned_at_openers :
    let source : Text := "<?php return ['a' => [/* # // */ // b /* ]\r\n\x0b#?\r\n\t]];".toList
    let literal : ArrayLiteral := ⟨.short, 21, 22, [], 50⟩
    ∃ tokens rest ps, tokenize source = .ok tokens ∧
      ArrayLiteral.read? (tokens.drop 5) = .ok (some (literal, rest)) ∧ literal.items = [] ∧
      scan source = .ok ps ∧ (commentsBetween 22 50 ps).getLast?.map Extent.stop = some 48 ∧
      lastCommentEnd source 22 50 = 48 ∧ ∀ c ∈ source.slice 48 50, c ∈ whiteSpace := by
  intro source literal
  have htokens : tokenize source = .ok ((tokenize source).toOption.getD []) :=
    eq_ok_of_toOption (by decide +kernel)
  have hread : ArrayLiteral.read? (((tokenize source).toOption.getD []).drop 5) =
      .ok (some (literal, [⟨.closing .square, 51, [']']⟩, ⟨.semicolon, 52, [';']⟩])) :=
    eq_ok_of_toOption (by decide +kernel)
  obtain ⟨ps, found, hscan, -, hlast, hfound, -, -, -, hwhite⟩ :=
    lastCommentEnd_scanned htokens hread rfl
  obtain rfl : 48 = found := (show 48 = lastCommentEnd source 22 50 by decide +kernel).trans hlast
  refine ⟨_, _, ps, htokens, hread, rfl, hscan, ?_, hlast, hwhite⟩
  cases hcomments : (commentsBetween 22 50 ps).getLast?.map Extent.stop with
  | none =>
    rw [hcomments] at hfound
    cases hfound
  | some stop =>
    rw [hcomments] at hfound
    exact congrArg some hfound.symm

end Script
end Scaffold

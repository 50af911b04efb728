/-
# Cutting part of a text

`Cut v u ps` says that the text `u`, where it stands before the text `v`, is cut into the pieces
`ps`, none of which ends the program. The rest `v` is kept in the judgement because a piece looks
ahead. Cuts compose (`Cut.append`), they are what `pieces` finds (`Cut.pieces_append`,
`cut_of_pieces`), and a cut stays one when `v` gives way to a text that starts with a fence
(`Cut.refence`).
-/

import Scaffold.Proofs.Scan.Fence

namespace Scaffold
namespace Script

/-- Before the text `v`, the text `u` is cut into the pieces `ps`. -/
inductive Cut (v : Text) : Text → List Piece → Prop
  | nil : Cut v [] []
  | cons {c : Char} {more u : Text} {kind : PieceKind} {ps : List Piece}
      (step : pieceAt c (more ++ (u ++ v)) = .ok (kind, more.length))
      (inside : kind ≠ .token .closeTag) (later : Cut v u ps) :
      Cut v (c :: (more ++ u)) (⟨kind, c :: more⟩ :: ps)

/-- The text of some pieces. -/
def textOf (ps : List Piece) : Text := (ps.map Piece.text).flatten

/-- No pieces have no text. -/
@[simp] theorem textOf_nil : textOf [] = [] := rfl

/-- The text of pieces is that of the first and of the others. -/
@[simp] theorem textOf_cons (p : Piece) (ps : List Piece) :
    textOf (p :: ps) = p.text ++ textOf ps := rfl

/-- The text of pieces that follow others. -/
@[simp] theorem textOf_append (ps qs : List Piece) :
    textOf (ps ++ qs) = textOf ps ++ textOf qs := by
  simp [textOf]

namespace Cut

variable {u v a b : Text} {ps qs : List Piece}

/-- A single piece. -/
theorem single {c : Char} {more v : Text} {kind : PieceKind}
    (step : pieceAt c (more ++ v) = .ok (kind, more.length)) (inside : kind ≠ .token .closeTag) :
    Cut v (c :: more) [⟨kind, c :: more⟩] := by
  have h : Cut v (c :: (more ++ [])) [⟨kind, c :: more⟩] := .cons step inside .nil
  rwa [List.append_nil] at h

/-- A token with one spelling, before every text. -/
theorem spelling {kind : TokenKind} {spelled : Text} (hs : spelling? kind = some spelled)
    (inside : kind ≠ .closeTag) (v : Text) : Cut v spelled [⟨.token kind, spelled⟩] := by
  obtain ⟨c, more, rfl, hp⟩ := pieceAt_of_spelling? hs v
  exact single hp (by simpa using inside)

/-- Two cuts are one behind the other. -/
theorem append (ha : Cut (b ++ v) a ps) (hb : Cut v b qs) : Cut v (a ++ b) (ps ++ qs) := by
  induction ha with
  | nil => exact hb
  | @cons c more u kind ps step inside _ ih =>
    rw [List.cons_append, List.append_assoc]
    exact .cons (by rwa [List.append_assoc]) inside ih

/-- A cut into pieces and others parts the text in two. -/
theorem split (h : Cut v u (ps ++ qs)) :
    ∃ a b, u = a ++ b ∧ Cut (b ++ v) a ps ∧ Cut v b qs := by
  induction ps generalizing u with
  | nil => exact ⟨[], u, rfl, .nil, h⟩
  | cons p ps ih =>
    cases h with
    | cons step inside later =>
      obtain ⟨a, b, rfl, ha, hb⟩ := ih later
      rw [List.append_assoc] at step
      exact ⟨_, b, by rw [List.cons_append, List.append_assoc], .cons step inside ha, hb⟩

/-- A text is cut into pieces that have its text. -/
theorem textOf_eq (h : Cut v u ps) : textOf ps = u := by
  induction h with
  | nil => rfl
  | cons _ _ _ ih => rw [textOf_cons, ih, List.cons_append]

/-- The pieces of a text that starts with a cut part are the pieces of that part and those of the
rest. -/
theorem pieces_append (h : Cut v u ps) (offset : Nat) :
    pieces offset (u ++ v) = (pieces (offset + u.length) v).map (ps ++ ·) := by
  induction h generalizing offset with
  | nil =>
    cases hv : pieces offset v <;> simp [Except.map, hv]
  | @cons c more u kind ps step inside later ih =>
    have hdrop : (more ++ (u ++ v)).drop more.length = u ++ v := List.drop_left
    have htake : (more ++ (u ++ v)).take more.length = more := List.take_left
    rw [List.cons_append, List.append_assoc, pieces, step]
    simp only [inside, if_false, htake, hdrop, ih, List.length_cons, List.length_append]
    rw [show offset + (more.length + 1) + u.length = offset + (more.length + u.length + 1) by omega]
    cases pieces (offset + (more.length + u.length + 1)) v <;> rfl

/-- **A cut does not depend on what follows it at a fence.** Where the last piece is no token, the
same fence must follow. -/
theorem refence {v' : Text} (h : Cut v u ps) {f : Char} (hv' : v'.head? = some f)
    (hf : isFence f = true) (hgt : v.head? ≠ some '>') (hsq : v.head? = some '[' → f = '[')
    (hend : (∃ p k, ps.getLast? = some p ∧ p.kind = .token k) ∨ v.head? = some f) :
    Cut v' u ps := by
  induction h with
  | nil => exact .nil
  | @cons c more u kind ps step inside later ih =>
    have hlast : ps ≠ [] →
        (∃ p k, ps.getLast? = some p ∧ p.kind = .token k) ∨ v.head? = some f := by
      intro hne
      refine hend.imp_left fun ⟨p, k, hp, hk⟩ => ⟨p, k, ?_, hk⟩
      rwa [List.getLast?_cons_of_ne_nil hne] at hp
    refine .cons ?_ inside ?_
    · rw [← List.append_assoc] at step ⊢
      refine pieceAt_append step (by simp) hv' hf hgt hsq fun he => ?_
      refine hend.imp_left fun ⟨p, k, hp, hk⟩ => ⟨k, ?_⟩
      have hu : u = [] := by simpa using he
      subst hu
      cases later
      simp only [List.getLast?_singleton, Option.some.injEq] at hp
      rw [← hk, ← hp]
    · cases ps with
      | nil =>
        cases later
        exact .nil
      | cons p ps => exact ih (hlast (List.cons_ne_nil _ _))

end Cut

/-- The first piece that is found is the one that starts the text. -/
theorem pieceAt_of_pieces {offset : Nat} {text : Text} {p : Piece} {ps : List Piece}
    (h : pieces offset text = .ok (p :: ps)) :
    ∃ c rest n, text = c :: rest ∧ pieceAt c rest = .ok (p.kind, n) ∧
      p.text = c :: rest.take n := by
  cases text with
  | nil =>
    rw [pieces] at h
    cases h
  | cons c rest =>
    rw [pieces] at h
    split at h
    · cases h
    rename_i kind n hstep
    simp only at h
    split at h
    · injection h with h
      obtain ⟨rfl, -⟩ := List.cons.inj h
      exact ⟨c, rest, n, rfl, hstep, rfl⟩
    · obtain ⟨later, -, he⟩ := map_eq_ok_iff.1 h
      obtain ⟨rfl, -⟩ := List.cons.inj he
      exact ⟨c, rest, n, rfl, hstep, rfl⟩

/-- The pieces found up to a piece of the program are a cut. -/
theorem cut_of_pieces {offset : Nat} {text : Text} {ps qs : List Piece} {q : Piece}
    (h : pieces offset text = .ok (ps ++ q :: qs)) (hq : q.kind ≠ .outside) :
    ∃ u v, text = u ++ v ∧ Cut v u ps ∧ pieces (offset + u.length) v = .ok (q :: qs) := by
  induction ps generalizing offset text with
  | nil => exact ⟨[], text, rfl, .nil, h⟩
  | cons p ps ih =>
    cases text with
    | nil =>
      rw [pieces] at h
      cases h
    | cons c rest =>
      rw [pieces] at h
      split at h
      · cases h
      rename_i kind n hstep
      have hn : (rest.take n).length = n := List.length_take_of_le (pieceAt_length_le hstep)
      simp only at h
      split at h
      · -- nothing of the program stands after a closing tag
        injection h with h
        have hps := (List.cons.inj h).2
        cases ps with
        | nil =>
          cases hps
          exact absurd rfl hq
        | cons p' ps => simp at hps
      · rename_i hk
        obtain ⟨later, hp, he⟩ := map_eq_ok_iff.1 h
        obtain ⟨rfl, rfl⟩ := List.cons.inj he
        obtain ⟨u, v, hrest, hcut, hv⟩ := ih hp
        refine ⟨c :: (rest.take n ++ u), v, ?_, .cons ?_ hk hcut, ?_⟩
        · rw [List.cons_append, List.append_assoc, ← hrest, List.take_append_drop]
        · rw [← hrest, List.take_append_drop, hn]
          exact hstep
        · rw [← hv, List.length_cons, List.length_cons, List.length_append]
          congr 1
          omega

/-- The pieces of a source text from a piece of the program on are those of the rest of the text. -/
theorem pieces_of_scan {source : Text} {ps qs : List Piece} {q : Piece}
    (h : scan source = .ok (ps ++ q :: qs)) (hpreamble : q.kind ≠ .preamble)
    (htag : q.kind ≠ .token .openTag) (houtside : q.kind ≠ .outside) :
    ∃ v, source = textOf ps ++ v ∧ pieces (textOf ps).length v = .ok (q :: qs) := by
  unfold scan at h
  split at h
  · obtain ⟨u, v, rfl, hcut, hv⟩ := cut_of_pieces h houtside
    rw [Nat.zero_add] at hv
    exact ⟨v, by rw [hcut.textOf_eq], by rwa [hcut.textOf_eq]⟩
  · rename_i before tag rest ht
    obtain ⟨later, hlater, he⟩ := map_eq_ok_iff.1 h
    rcases ps with _ | ⟨p, _ | ⟨p', ps⟩⟩
    · exact absurd (congrArg Piece.kind (List.cons.inj he).1).symm hpreamble
    · exact absurd (congrArg Piece.kind (List.cons.inj (List.cons.inj he).2).1).symm htag
    · obtain ⟨rfl, hps⟩ := List.cons.inj he
      obtain ⟨rfl, rfl⟩ := List.cons.inj hps
      obtain ⟨u, v, rfl, hcut, hv⟩ := cut_of_pieces hlater houtside
      have htext : textOf (⟨.preamble, before⟩ :: ⟨.token .openTag, tag⟩ :: ps) =
          before ++ (tag ++ u) := by
        rw [textOf_cons, textOf_cons, hcut.textOf_eq]
      refine ⟨v, ?_, ?_⟩
      · rw [← append_of_openTag? ht, htext, List.append_assoc, List.append_assoc]
      · rwa [htext, List.length_append, List.length_append, ← Nat.add_assoc]

/-- Where a text stands does not matter for its pieces. -/
theorem pieces_offset {offset : Nat} {text : Text} {ps : List Piece}
    (h : pieces offset text = .ok ps) (offset' : Nat) : pieces offset' text = .ok ps := by
  fun_induction pieces offset text generalizing offset' ps with
  | case1 =>
    cases h
    rw [pieces]
  | case2 => cases h
  | case3 offset c rest more hstep =>
    cases h
    rw [pieces, hstep]
    rfl
  | case4 offset c rest kind more hstep piece hk =>
    rename_i ih
    obtain ⟨later, hp, rfl⟩ := map_eq_ok_iff.1 h
    rw [pieces, hstep]
    simp only [hk, if_false]
    rw [ih hp]
    rfl

end Script
end Scaffold

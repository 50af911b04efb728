/-
# Gaps between tokens

A gap is a text of white space and comments. `Skipped v g` says that the text `g` before the text
`v` holds no token, and `Commented v g cs` that it holds the comments `cs` besides. Only a line
comment looks at what follows it: it ends before a newline, a closing tag or the end
(`comment_cases`).
-/

import Scaffold.Proofs.Scan.Tokens

namespace Scaffold
namespace Script

/-- The texts of the comments among some pieces. -/
def commentsOf (ps : List Piece) : List Text :=
  (ps.filter fun p => p.kind = .comment).map Piece.text

/-- No pieces have no comments. -/
@[simp] theorem commentsOf_nil : commentsOf [] = [] := rfl

/-- The comments of pieces that follow others. -/
@[simp] theorem commentsOf_append (ps qs : List Piece) :
    commentsOf (ps ++ qs) = commentsOf ps ++ commentsOf qs := by
  rw [commentsOf, List.filter_append, List.map_append]
  rfl

/-- Pieces that are no comments have none. -/
theorem commentsOf_eq_nil {ps : List Piece} (h : ∀ p ∈ ps, p.kind ≠ .comment) :
    commentsOf ps = [] := by
  rw [commentsOf, List.filter_eq_nil_iff.2 (by simpa using h), List.map_nil]

/-- Before the text `v`, the text `g` holds no token. -/
def Skipped (v g : Text) : Prop :=
  ∃ gs, Cut v g gs ∧ ∀ p ∈ gs, ∀ kind, p.kind ≠ .token kind

/-- Before the text `v`, the text `g` is white space and the comments `cs`. -/
def Commented (v g : Text) (cs : List Text) : Prop :=
  ∃ gs, Cut v g gs ∧ (∀ p ∈ gs, ∀ kind, p.kind ≠ .token kind) ∧ commentsOf gs = cs

/-- A line comment as long as `x` stops behind it. -/
theorem lineCommentLength_eq_zero {x v : Text} (h : lineCommentLength (x ++ v) = x.length) :
    lineCommentLength v = 0 := by
  induction x with
  | nil => exact h
  | cons c x ih =>
    rw [List.cons_append, lineCommentLength, List.length_cons] at h
    split at h
    · cases h
    · exact ih (by omega)

/-- A line comment takes no newline. -/
theorem newline_not_mem_of_lineCommentLength {x v : Text}
    (h : x.length ≤ lineCommentLength (x ++ v)) : '\n' ∉ x := by
  induction x with
  | nil => exact List.not_mem_nil
  | cons c x ih =>
    rw [List.cons_append, lineCommentLength, List.length_cons] at h
    split at h
    · omega
    · rename_i hc
      refine List.not_mem_cons_of_ne_of_not_mem (fun hn => hc (Or.inl hn.symm)) (ih (by omega))

/-- Before a newline, alone or after a carriage return, a line comment ends. -/
theorem lineCommentLength_newline {cr : Text} (hcr : OptionalReturn cr) (w : Text) :
    lineCommentLength (cr ++ '\n' :: w) = cr.length := by
  rcases hcr with rfl | rfl <;> simp [lineCommentLength]

/-- A comment that may end at once starts with a hash. -/
theorem eq_hash_of_lineCommentLength {c : Char} {v : Text} (h : startsComment c v = true)
    (h0 : lineCommentLength v = 0) : c = '#' := by
  rcases startsComment_cases h with rfl | rfl
  · -- a slash would need a second slash or an asterisk, and neither ends a line comment
    cases v with
    | nil => cases h
    | cons d v =>
      have hd : d = '/' ∨ d = '*' := by simpa [startsComment] using h
      rw [lineCommentLength, if_neg] at h0
      · cases h0
      · rcases hd with rfl | rfl <;> simp
  · rfl

section Comment

variable {c : Char} {more v : Text}

/-- A block comment is one before every text. -/
theorem pieceAt_blockComment {d : Char} (starts : startsComment c (d :: more ++ v) = true)
    (hb : c = '/' ∧ d = '*') (length : commentLength c (d :: more ++ v) = some (more.length + 1))
    (w : Text) : pieceAt c (d :: more ++ w) = .ok (.comment, more.length + 1) := by
  obtain ⟨rfl, rfl⟩ := hb
  rw [commentLength, if_pos ⟨rfl, rfl⟩] at length
  obtain ⟨m, hm, hlen⟩ := Option.map_eq_some_iff.1 length
  have hm' : blockCommentLength (more ++ w) = some m := blockCommentLength_append hm (by omega) w
  refine PieceShape.pieceAt_eq (.comment starts ?_)
  rw [commentLength, if_pos ⟨rfl, rfl⟩, List.cons_append, List.tail_cons, hm', Option.map_some,
    hlen]

/-- A line comment goes on to the next line break. -/
theorem pieceAt_lineComment (starts : startsComment c (more ++ v) = true)
    (hb : ¬(c = '/' ∧ (more ++ v).head? = some '*'))
    (length : lineCommentLength (more ++ v) = more.length) {cr : Text} (hcr : OptionalReturn cr)
    (w : Text) :
    pieceAt c (more ++ (cr ++ '\n' :: w)) = .ok (.comment, more.length + cr.length) := by
  have hlen : lineCommentLength (more ++ (cr ++ '\n' :: w)) = more.length + cr.length := by
    rw [lineCommentLength_append_of_le (Nat.le_of_eq length.symm), lineCommentLength_newline hcr]
    rcases hcr with rfl | rfl <;> simp
  suffices hs : startsComment c (more ++ (cr ++ '\n' :: w)) = true ∧
      ¬(c = '/' ∧ (more ++ (cr ++ '\n' :: w)).head? = some '*') by
    refine PieceShape.pieceAt_eq (.comment hs.1 ?_)
    rw [commentLength, if_neg hs.2, hlen]
  cases more with
  | nil =>
    obtain rfl := eq_hash_of_lineCommentLength starts length
    refine ⟨?_, fun hc => absurd hc.1 (by decide)⟩
    rcases hcr with rfl | rfl <;> rfl
  | cons d more => exact ⟨starts, hb⟩

/-- **What ends a comment.** A block comment ends itself. A line comment ends before a newline, a
closing tag or the end, and before a newline it takes in a carriage return. -/
theorem comment_cases (h : pieceAt c (more ++ v) = .ok (.comment, more.length)) :
    (c = '/' ∧ more.head? = some '*' ∧ ∀ w, pieceAt c (more ++ w) = .ok (.comment, more.length)) ∨
      lineCommentLength v = 0 ∧ '\n' ∉ c :: more ∧ ∀ cr w, OptionalReturn cr →
        pieceAt c (more ++ (cr ++ '\n' :: w)) = .ok (.comment, more.length + cr.length) := by
  have hshape := pieceShape_of_pieceAt h
  generalize hn : more.length = n at hshape
  cases hshape with
  | comment starts length =>
    subst hn
    by_cases hb : c = '/' ∧ (more ++ v).head? = some '*'
    · left
      cases more with
      | nil =>
        rw [commentLength, if_pos hb] at length
        obtain ⟨m, -, hm⟩ := Option.map_eq_some_iff.1 length
        cases hm
      | cons d more =>
        exact ⟨hb.1, hb.2, pieceAt_blockComment starts ⟨hb.1, Option.some.inj hb.2⟩ length⟩
    · right
      rw [commentLength, if_neg hb, Option.some.injEq] at length
      have hc : '\n' ≠ c := by
        rintro rfl
        cases starts
      exact ⟨lineCommentLength_eq_zero length,
        List.not_mem_cons_of_ne_of_not_mem hc (newline_not_mem_of_lineCommentLength length.ge),
        fun cr w hcr => pieceAt_lineComment starts hb length hcr w⟩

end Comment

/-- A white space character is a piece of its own. -/
theorem pieceAt_of_isGap {c : Char} (h : isGap c = true) (rest : Text) :
    pieceAt c rest = .ok (.blank, 0) :=
  PieceShape.pieceAt_eq (.blank h)

/-- The first character of a gap is white space or starts a comment. -/
theorem pieceShape_gap {c : Char} {rest : Text} {kind : PieceKind} {n : Nat}
    (h : pieceAt c rest = .ok (kind, n)) (hk : ∀ k, kind ≠ .token k) :
    kind = .blank ∧ n = 0 ∧ isGap c = true ∨ kind = .comment ∧ (c = '/' ∨ c = '#') := by
  cases pieceShape_of_pieceAt h with
  | blank gap => exact Or.inl ⟨rfl, rfl, gap⟩
  | comment starts => exact Or.inr ⟨rfl, startsComment_cases starts⟩
  | _ => exact absurd rfl (hk _)

/-- A text that starts with a token other than a closing tag. -/
def StartsToken (v : Text) : Prop :=
  ∃ c rest kind n, v = c :: rest ∧ pieceAt c rest = .ok (.token kind, n) ∧ kind ≠ .closeTag

/-- No line comment ends before a token. -/
theorem StartsToken.lineCommentLength_ne_zero {v : Text} (h : StartsToken v) :
    lineCommentLength v ≠ 0 := by
  obtain ⟨c, rest, kind, n, rfl, hp, hk⟩ := h
  intro h0
  rw [lineCommentLength] at h0
  split at h0
  · rename_i hc
    rcases hc with rfl | ⟨rfl, hr⟩
    · rw [pieceAt_of_isGap rfl] at hp
      cases hp
    · obtain ⟨w, rfl⟩ : ∃ w, rest = '>' :: w := by
        cases rest with
        | nil => cases hr
        | cons d w => cases hr; exact ⟨w, rfl⟩
      cases hp
      exact hk rfl
  · cases h0

namespace Commented

variable {v g a b : Text} {cs ds : List Text}

/-- White space and comments are skipped. -/
theorem skipped (h : Commented v g cs) : Skipped v g := by
  obtain ⟨gs, hgs, hgk, -⟩ := h
  exact ⟨gs, hgs, hgk⟩

/-- An empty gap has no comments. -/
theorem nil : Commented v [] [] := ⟨[], .nil, fun _ h => absurd h List.not_mem_nil, rfl⟩

/-- Two gaps, one behind the other, have the comments of both. -/
theorem append (ha : Commented (b ++ v) a cs) (hb : Commented v b ds) :
    Commented v (a ++ b) (cs ++ ds) := by
  obtain ⟨ps, hps, hpk, rfl⟩ := ha
  obtain ⟨qs, hqs, hqk, rfl⟩ := hb
  refine ⟨ps ++ qs, hps.append hqs, fun p hp => ?_, commentsOf_append ps qs⟩
  rcases List.mem_append.1 hp with hp | hp
  · exact hpk p hp
  · exact hqk p hp

/-- White space in front of a gap adds no comment. -/
theorem cons_blank {c : Char} (hc : isGap c = true) (h : Commented v g cs) :
    Commented v (c :: g) cs := by
  obtain ⟨gs, hgs, hgk, rfl⟩ := h
  have hstep : pieceAt c ([] ++ (g ++ v)) = .ok (.blank, ([] : Text).length) :=
    pieceAt_of_isGap hc _
  exact ⟨_, .cons hstep (by simp) hgs, List.forall_mem_cons.2 ⟨by simp, hgk⟩, rfl⟩

/-- A comment in front of a gap is the first of its comments. -/
theorem cons_comment {c : Char} {more : Text}
    (step : pieceAt c (more ++ (g ++ v)) = .ok (.comment, more.length)) (h : Commented v g cs) :
    Commented v (c :: (more ++ g)) ((c :: more) :: cs) := by
  obtain ⟨gs, hgs, hgk, rfl⟩ := h
  exact ⟨_, .cons step (by simp) hgs, List.forall_mem_cons.2 ⟨by simp, hgk⟩, rfl⟩

/-- White space has no comments. -/
theorem of_isGap (h : ∀ c ∈ g, isGap c = true) : Commented v g [] := by
  induction g with
  | nil => exact nil
  | cons c g ih =>
    obtain ⟨hc, hg⟩ := List.forall_mem_cons.1 h
    exact cons_blank hc (ih hg)

/-- The comments of a gap are found there. -/
theorem pieces_append (h : Commented v g cs) (offset : Nat) : ∃ gs, commentsOf gs = cs ∧
    pieces offset (g ++ v) = (pieces (offset + g.length) v).map (gs ++ ·) := by
  obtain ⟨gs, hgs, -, hcs⟩ := h
  exact ⟨gs, hcs, hgs.pieces_append offset⟩

end Commented

/-- What is skipped has some comments. -/
theorem Skipped.exists_commented {v g : Text} (h : Skipped v g) : ∃ cs, Commented v g cs := by
  obtain ⟨gs, hgs, hgk⟩ := h
  exact ⟨_, gs, hgs, hgk, rfl⟩

namespace Skipped

variable {v g a b : Text}

/-- An empty text is skipped. -/
theorem nil : Skipped v [] := Commented.nil.skipped

/-- Two texts that are skipped, one behind the other, are skipped. -/
theorem append (ha : Skipped (b ++ v) a) (hb : Skipped v b) : Skipped v (a ++ b) := by
  obtain ⟨cs, ha⟩ := ha.exists_commented
  obtain ⟨ds, hb⟩ := hb.exists_commented
  exact (ha.append hb).skipped

/-- White space in front of what is skipped is skipped. -/
theorem cons_blank {c : Char} (hc : isGap c = true) (h : Skipped v g) : Skipped v (c :: g) := by
  obtain ⟨cs, h⟩ := h.exists_commented
  exact (h.cons_blank hc).skipped

/-- A comment in front of what is skipped is skipped. -/
theorem cons_comment {c : Char} {more : Text}
    (step : pieceAt c (more ++ (g ++ v)) = .ok (.comment, more.length)) (h : Skipped v g) :
    Skipped v (c :: (more ++ g)) := by
  obtain ⟨cs, h⟩ := h.exists_commented
  exact (h.cons_comment step).skipped

/-- White space is skipped. -/
theorem of_isGap (h : ∀ c ∈ g, isGap c = true) : Skipped v g :=
  (Commented.of_isGap h).skipped

/-- A gap is told piece by piece: white space, block comments, line comments. -/
theorem induction {motive : (g : Text) → Skipped v g → Prop} (nil : ∀ h, motive [] h)
    (blank : ∀ c u h, isGap c = true → ∀ hu, motive u hu → motive (c :: u) h)
    (block : ∀ c more u h, c = '/' → more.head? = some '*' →
      (∀ w, pieceAt c (more ++ w) = .ok (.comment, more.length)) →
      ∀ hu, motive u hu → motive (c :: (more ++ u)) h)
    (line : ∀ c more u h, pieceAt c (more ++ (u ++ v)) = .ok (.comment, more.length) →
      lineCommentLength (u ++ v) = 0 → '\n' ∉ c :: more →
      (∀ cr w, OptionalReturn cr →
        pieceAt c (more ++ (cr ++ '\n' :: w)) = .ok (.comment, more.length + cr.length)) →
      ∀ hu, motive u hu → motive (c :: (more ++ u)) h)
    (h : Skipped v g) : motive g h := by
  obtain ⟨gs, hgs, hgk⟩ := h
  induction hgs with
  | nil => exact nil _
  | @cons c more u kind ps step inside later ih =>
    obtain ⟨hk, hps⟩ := List.forall_mem_cons.1 hgk
    have hu : Skipped v u := ⟨ps, later, hps⟩
    rcases pieceShape_gap step hk with ⟨rfl, hlen, hc⟩ | ⟨rfl, -⟩
    · obtain rfl := List.length_eq_zero_iff.1 hlen
      exact blank c u _ hc hu (ih hps)
    · rcases comment_cases step with ⟨hc, hm, hb⟩ | ⟨h0, hnl, hl⟩
      · exact block c more u _ hc hm hb hu (ih hps)
      · exact line c more u _ step h0 hnl hl hu (ih hps)

/-- Where a line comment ends, a gap goes on with a newline or not at all. -/
theorem head_newline (h : Skipped v g) (h0 : lineCommentLength (g ++ v) = 0) :
    g = [] ∨ ∃ u, g = '\n' :: u := by
  obtain ⟨gs, hgs, hgk⟩ := h
  cases hgs with
  | nil => exact Or.inl rfl
  | @cons c more u kind ps step inside later =>
    right
    have hk := (List.forall_mem_cons.1 hgk).1
    rw [List.cons_append, lineCommentLength] at h0
    split at h0
    · rename_i hc
      rcases hc with rfl | ⟨rfl, -⟩
      · exact ⟨_, rfl⟩
      · rcases pieceShape_gap step hk with ⟨-, -, hg⟩ | ⟨-, hc | hc⟩
        · exact absurd hg (by decide)
        · exact absurd hc (by decide)
        · exact absurd hc (by decide)
    · cases h0

/-- A gap of white space and comments before `v` starts with none of the characters that could go
on with a token. -/
theorem head_cases (h : Skipped v g) :
    g = [] ∨ ∃ c u, g = c :: u ∧ (isGap c = true ∨ c = '/' ∨ c = '#') := by
  obtain ⟨gs, hgs, hgk⟩ := h
  cases hgs with
  | nil => exact Or.inl rfl
  | @cons c more u kind ps step inside later =>
    refine Or.inr ⟨c, more ++ u, rfl, ?_⟩
    rcases pieceShape_gap step (List.forall_mem_cons.1 hgk).1 with ⟨-, -, hg⟩ | ⟨-, hc⟩
    · exact Or.inl hg
    · exact Or.inr hc

/-- A gap adds no tokens. -/
theorem tokensFrom_append (h : Skipped v g) (offset : Nat) :
    tokensFrom offset (g ++ v) = tokensFrom (offset + g.length) v := by
  obtain ⟨gs, hgs, hgk⟩ := h
  rw [hgs.tokensFrom_append, (Token.ofPieces_eq_nil_iff offset).2 hgk]
  cases tokensFrom (offset + g.length) v <;> rfl

end Skipped

end Script
end Scaffold

/-
# What follows a piece at a fence

A fence is a character that goes on with no piece: an opening bracket, a comma or an equals sign.
Main statement: a piece that lies within `x` is the same before all texts that start with a fence
(`pieceAt_append`). It is shown shape by shape; only a comment that reaches the end of `x`, and a
`#` that stands there, need to know which fence it is.
-/

import Scaffold.Proofs.Scan.Pieces

namespace Scaffold
namespace Script

/-- A character that goes on with no piece: an opening bracket, a comma or an equals sign. -/
def isFence (c : Char) : Bool := c == ',' || c == '[' || c == '(' || c == '='

/-- The characters that go on with no piece. -/
theorem fence_cases {c : Char} (h : isFence c = true) : c = ',' ∨ c = '[' ∨ c = '(' ∨ c = '=' := by
  simpa only [isFence, Bool.or_eq_true, beq_iff_eq, or_assoc] using h

section Fence

variable {c f : Char} {x v : Text} {n : Nat}

/-! ### Comments -/

/-- A line comment goes on over such a character. -/
theorem lineCommentLength_fence (hf : isFence f = true) (w : Text) :
    0 < lineCommentLength (f :: w) := by
  rw [lineCommentLength, if_neg]
  · exact Nat.succ_pos _
  · rcases fence_cases hf with rfl | rfl | rfl | rfl <;> simp

/-- A comment that takes at least the character `d`. -/
theorem commentLength_append {d : Char} (h : commentLength c (d :: x ++ v) = some n)
    (hn : n ≤ (d :: x).length) (hgt : v.head? ≠ some '>')
    (hend : n = (d :: x).length → 0 < lineCommentLength v) (v' : Text) :
    commentLength c (d :: x ++ v') = some n := by
  unfold commentLength at h ⊢
  by_cases hb : c = '/' ∧ (d :: x ++ v).head? = some '*'
  · have hb' : c = '/' ∧ (d :: x ++ v').head? = some '*' := hb
    rw [if_pos hb] at h
    rw [if_pos hb']
    obtain ⟨m, hm, rfl⟩ := Option.map_eq_some_iff.1 h
    rw [List.cons_append, List.tail_cons] at hm ⊢
    rw [blockCommentLength_append hm (by simpa using hn) v']
    rfl
  · have hb' : ¬(c = '/' ∧ (d :: x ++ v').head? = some '*') := hb
    rw [if_neg hb, Option.some.injEq] at h
    rw [if_neg hb', Option.some.injEq, ← h]
    refine lineCommentLength_append_of_lt (Nat.lt_of_le_of_ne (h ▸ hn) fun he => ?_) hgt v'
    -- a line comment that reaches the end of `d :: x` goes on in `v`
    have := lineCommentLength_append_of_le (Nat.le_of_eq he.symm) hgt
    have := hend (by omega)
    omega

/-- A comment that takes no character ends its line. -/
theorem commentLength_ne_zero (h : 0 < lineCommentLength v) : commentLength c v ≠ some 0 := by
  unfold commentLength
  split
  · intro hzero
    obtain ⟨m, -, hm⟩ := Option.map_eq_some_iff.1 hzero
    omega
  · rw [Ne, Option.some.injEq]
    omega

/-- A comment within `x` is a comment before such a character. -/
theorem comment_append (hs : startsComment c (x ++ v) = true)
    (h : commentLength c (x ++ v) = some n) (hn : n ≤ x.length) (hgt : v.head? ≠ some '>')
    (hf : isFence f = true) (hend : n = x.length → v.head? = some f) (w : Text) :
    startsComment c (x ++ f :: w) = true ∧ commentLength c (x ++ f :: w) = some n := by
  have hpos : n = x.length → 0 < lineCommentLength v := by
    intro he
    obtain ⟨u, rfl⟩ := List.head?_eq_some_iff.1 (hend he)
    exact lineCommentLength_fence hf u
  cases x with
  | nil =>
    obtain rfl : n = 0 := Nat.le_zero.1 hn
    exact absurd h (commentLength_ne_zero (hpos rfl))
  | cons d x => exact ⟨hs, commentLength_append h hn hgt hpos _⟩

/-- Where no comment starts, none does before such a character. -/
theorem not_startsComment_append (h : startsComment c (x ++ v) = false) (hf : isFence f = true)
    (hsq : v.head? = some '[' → f = '[') (w : Text) : startsComment c (x ++ f :: w) = false := by
  cases x with
  | cons d x => exact h
  | nil =>
    rw [List.nil_append] at h ⊢
    unfold startsComment at h ⊢
    split
    · rcases fence_cases hf with rfl | rfl | rfl | rfl <;> rfl
    · rename_i hc
      rw [if_neg hc] at h
      by_cases hh : c = '#'
      · have hv : v.head? = some '[' := by simpa [hh] using h
        simp [hsq hv]
      · simp [hh]

/-! ### Heredocs -/

/-- No label stands behind a fence. -/
theorem not_label_append (h : ¬(labelStart (x ++ v)).head?.any isNameStart)
    (hf : isFence f = true) (w : Text) : ¬(labelStart (x ++ f :: w)).head?.any isNameStart := by
  simp only [labelStart, List.dropWhile_append] at h ⊢
  cases hx : x.dropWhile Text.isIndent with
  | nil => rcases fence_cases hf with rfl | rfl | rfl | rfl <;> exact Bool.false_ne_true
  | cons q o =>
    rw [hx] at h
    simp only [labelQuote, List.isEmpty_cons, Bool.false_eq_true, if_false, List.cons_append,
      List.head?_cons, Option.toList_some] at h ⊢
    cases hq : q == '\x27' || q == '\x22' with
    | true =>
      simp only [List.filter, hq, List.length_singleton, List.drop_succ_cons, List.drop_zero] at h ⊢
      cases o with
      | nil => rcases fence_cases hf with rfl | rfl | rfl | rfl <;> exact Bool.false_ne_true
      | cons d o => exact h
    | false =>
      simp only [List.filter, hq, List.length_nil, List.drop_zero, List.head?_cons] at h ⊢
      exact h

/-- Where no heredoc starts, none does before such a character. -/
theorem not_opensHeredoc_append (h : ¬opensHeredoc c (x ++ v)) (hf : isFence f = true) (w : Text) :
    ¬opensHeredoc c (x ++ f :: w) := by
  rintro ⟨rfl, htake, hlabel⟩
  have hne : f ≠ '<' := by
    rintro rfl
    cases hf
  match x with
  | [] => exact hne (List.cons.inj htake).1
  | [d] => exact hne (List.cons.inj (List.cons.inj htake).2).1
  | d :: e :: x => exact not_label_append (fun hl => h ⟨rfl, htake, hl⟩) hf w hlabel

/-! ### Words and pairs -/

/-- Such a character is no word character. -/
theorem not_isWordChar_fence (hf : isFence f = true) (w : Text) :
    ¬(f :: w).head?.any isWordChar := by
  rcases fence_cases hf with rfl | rfl | rfl | rfl <;> exact Bool.false_ne_true

/-- Where no name starts, none does before such a character. -/
theorem not_isNameStart_append (h : ¬(x ++ v).head?.any isNameStart = true) (hf : isFence f = true)
    (w : Text) : ¬(x ++ f :: w).head?.any isNameStart = true := by
  cases x with
  | nil => rcases fence_cases hf with rfl | rfl | rfl | rfl <;> exact Bool.false_ne_true
  | cons d x => exact h

/-- Where no pair stands, none does before such a character. -/
theorem pair?_append (h : pair? c (x ++ v) = none) (hf : isFence f = true) (w : Text) :
    pair? c (x ++ f :: w) = none := by
  cases x with
  | nil => rcases fence_cases hf with rfl | rfl | rfl | rfl <;> simp [pair?]
  | cons d x => exact h

/-! ### Pieces -/

variable {kind : PieceKind}

/-- A piece within `x` has its shape before such a character. -/
theorem PieceShape.append (h : PieceShape c (x ++ v) kind n) (hn : n ≤ x.length)
    (hf : isFence f = true) (hgt : v.head? ≠ some '>') (hsq : v.head? = some '[' → f = '[')
    (hend : n = x.length → (∃ k, kind = .token k) ∨ v.head? = some f) (w : Text) :
    PieceShape c (x ++ f :: w) kind n := by
  have hword := not_isWordChar_fence hf w
  cases h with
  | blank gap => exact .blank gap
  | comment starts length =>
    have hend' : n = x.length → v.head? = some f := fun he => (hend he).resolve_left (by simp)
    obtain ⟨starts', length'⟩ := comment_append starts length hn hgt hf hend' w
    exact .comment starts' length'
  | quoted quote length => exact .quoted_append quote length hn _
  | heredoc angle opened first length => exact .heredoc_append angle opened first length hn hword
  | pair pair =>
    cases x with
    | nil => cases hn
    | cons d x => exact .pair pair
  | punctuation single => exact .punctuation single
  | variableName dollar name =>
    have hl := length_takeWhile_append rfl hn hword
    cases x with
    | nil =>
      -- a name has a character, which would lie beyond `x`
      cases v with
      | nil => cases name
      | cons e u =>
        rw [List.nil_append, List.takeWhile_cons_of_pos (isWordChar_of_isNameStart name)] at hn
        cases hn
    | cons d x =>
      rw [← hl]
      exact .variableName dollar name
  | word char =>
    rw [← length_takeWhile_append rfl hn hword]
    exact .word char
  | symbol gap comment quote heredoc pair single dollar char =>
    refine .symbol gap (not_startsComment_append comment hf hsq w) quote
      (not_opensHeredoc_append heredoc hf w) (pair?_append pair hf w) single ?_ char
    exact fun hd => not_isNameStart_append (fun h => dollar ⟨hd.1, h⟩) hf w hd.2

end Fence

/-- **A piece does not depend on what follows it at a fence.** -/
theorem pieceAt_append {c : Char} {x v v' : Text} {kind : PieceKind} {n : Nat}
    (h : pieceAt c (x ++ v) = .ok (kind, n)) (hn : n ≤ x.length)
    {f : Char} (hv' : v'.head? = some f) (hf : isFence f = true)
    (hgt : v.head? ≠ some '>') (hsq : v.head? = some '[' → f = '[')
    (hend : n = x.length → (∃ k, kind = .token k) ∨ v.head? = some f) :
    pieceAt c (x ++ v') = .ok (kind, n) := by
  obtain ⟨w, rfl⟩ := List.head?_eq_some_iff.1 hv'
  exact pieceAt_eq_ok_iff.2 ((pieceAt_eq_ok_iff.1 h).append hn hf hgt hsq hend w)

end Script
end Scaffold

/-
# What a piece looks like

`PieceShape c rest kind n` lists the shapes of pieces one by one; they are what `pieceAt` finds
(`pieceAt_eq_ok_iff`). From it: a piece lies within the text, and no token ends with a carriage
return. Brackets, separators and arrows are written in one way only, and are found wherever they
are written (`pieceAt_of_spelling?`).
-/

import Scaffold.Proofs.Scan.Heredoc

namespace Scaffold
namespace Script

/-- Three angle signs and a label start a heredoc. -/
def opensHeredoc (c : Char) (rest : Text) : Prop :=
  c = '<' ∧ rest.take 2 = ['<', '<'] ∧ (labelStart (rest.drop 2)).head?.any isNameStart = true

/-- The shapes of a piece that starts with `c` and takes `n` characters of `rest`. -/
inductive PieceShape (c : Char) (rest : Text) : PieceKind → Nat → Prop
  | blank (gap : isGap c = true) : PieceShape c rest .blank 0
  | comment {n : Nat} (starts : startsComment c rest = true)
      (length : commentLength c rest = some n) : PieceShape c rest .comment n
  | quoted {n : Nat} (quote : isQuote c = true) (length : quotedLength c rest = some n) :
      PieceShape c rest (.token .string) n
  | heredoc {label head body : Text} {n : Nat} (angle : c = '<')
      (opened : rest = '<' :: '<' :: (head ++ body)) (first : IsHeredocHead label head)
      (length : heredocBodyLength label true body = some n) :
      PieceShape c rest (.token .string) (2 + head.length + n)
  | pair {kind : TokenKind} (pair : pair? c rest = some kind) : PieceShape c rest (.token kind) 1
  | punctuation {kind : TokenKind} (single : punctuation? c = some kind) :
      PieceShape c rest (.token kind) 0
  | variableName (dollar : c = '$') (name : rest.head?.any isNameStart = true) :
      PieceShape c rest (.token .variableName) (rest.takeWhile isWordChar).length
  | word (char : isWordChar c = true) :
      PieceShape c rest (.token .word) (rest.takeWhile isWordChar).length
  | symbol (gap : isGap c = false) (comment : startsComment c rest = false)
      (quote : isQuote c = false) (heredoc : ¬opensHeredoc c rest) (pair : pair? c rest = none)
      (single : punctuation? c = none) (dollar : ¬(c = '$' ∧ rest.head?.any isNameStart = true))
      (char : isWordChar c = false) : PieceShape c rest (.token .symbol) 0

/-- What `pieceAt` finds has one of the shapes. -/
theorem pieceShape_of_pieceAt {c : Char} {rest : Text} {kind : PieceKind} {n : Nat}
    (h : pieceAt c rest = .ok (kind, n)) : PieceShape c rest kind n := by
  unfold pieceAt at h
  split at h
  · rename_i hg
    cases h
    exact .blank hg
  rename_i hg
  split at h
  · rename_i hs
    split at h
    · rename_i more hm
      cases h
      exact .comment hs hm
    · cases h
  rename_i hs
  split at h
  · rename_i hq
    split at h
    · rename_i more hm
      cases h
      exact .quoted hq hm
    · cases h
  rename_i hq
  split at h
  · rename_i hh
    obtain ⟨rfl, htake⟩ := hh
    obtain ⟨hl, rfl, rfl⟩ | ⟨label, head, body, more, he, hh, hm, rfl, rfl⟩ :=
      heredocPiece_eq_ok_iff.1 h
    · exact .symbol rfl rfl rfl (fun hh => hl hh.2.2) rfl rfl (by simp) rfl
    · refine .heredoc rfl ?_ hh hm
      have hsplit := List.take_append_drop 2 rest
      rw [htake, he] at hsplit
      exact hsplit.symm
  rename_i hh
  split at h
  · rename_i hk
    cases h
    exact .pair hk
  · rename_i hk
    cases h
    exact .punctuation hk
  rename_i hp hk
  split at h
  · rename_i hd
    cases h
    exact .variableName hd.1 hd.2
  rename_i hd
  split at h
  · rename_i hw
    cases h
    exact .word hw
  · rename_i hw
    cases h
    exact .symbol (Bool.eq_false_iff.2 hg) (Bool.eq_false_iff.2 hs) (Bool.eq_false_iff.2 hq)
      (fun ho => hh ⟨ho.1, ho.2.1⟩) hp hk hd (Bool.eq_false_iff.2 hw)

/-- A comment starts with a slash or a hash. -/
theorem startsComment_cases {c : Char} {rest : Text} (h : startsComment c rest = true) :
    c = '/' ∨ c = '#' := by
  unfold startsComment at h
  split at h
  · rename_i hc
    exact Or.inl hc
  · rw [Bool.and_eq_true, decide_eq_true_eq] at h
    exact Or.inr h.1

/-- The three quotes. -/
theorem isQuote_cases {c : Char} (h : isQuote c = true) : c = '\x27' ∨ c = '\x22' ∨ c = '\x60' := by
  simpa only [isQuote, Bool.or_eq_true, beq_iff_eq, or_assoc] using h

/-- A word character is no white space. -/
theorem isGap_of_isWordChar {c : Char} (h : isWordChar c = true) : isGap c = false := by
  rw [Bool.eq_false_iff]
  intro hg
  simp only [isGap, isAsciiBlank, Bool.or_eq_true, beq_iff_eq] at hg
  rcases hg with ((((rfl | rfl) | rfl) | rfl) | rfl) | rfl <;> exact absurd h (by decide)

/-- No other piece starts with a word character. -/
theorem pieceAt_of_isWordChar {c : Char} (h : isWordChar c = true) (rest : Text) :
    pieceAt c rest = .ok (.token .word, (rest.takeWhile isWordChar).length) := by
  have hne : ∀ d, isWordChar d = false → c ≠ d := by
    rintro d hd rfl
    rw [hd] at h
    cases h
  have hgap : ¬isGap c = true := by
    rw [isGap_of_isWordChar h]
    exact Bool.false_ne_true
  have hcomment : ¬startsComment c rest = true :=
    fun hc => (startsComment_cases hc).elim (hne _ rfl) (hne _ rfl)
  have hquote : ¬isQuote c = true :=
    fun hq => (isQuote_cases hq).elim (hne _ rfl) fun hq => hq.elim (hne _ rfl) (hne _ rfl)
  have hpair : pair? c rest = none := by
    unfold pair?
    split
    · exact absurd rfl (hne '?' rfl)
    · exact absurd rfl (hne '=' rfl)
    · exact absurd rfl (hne ':' rfl)
    · rfl
  have hsingle : punctuation? c = none := by
    unfold punctuation?
    split <;> first | rfl | exact absurd h (by decide)
  rw [pieceAt, if_neg hgap, if_neg hcomment, if_neg hquote, if_neg fun h => hne '<' rfl h.1, hpair,
    hsingle]
  simp only
  rw [if_neg fun h => hne '$' rfl h.1, if_pos h]

/-- The characters that start a piece tell its shape, except where all else fails. -/
theorem PieceShape.pieceAt_eq {c : Char} {rest : Text} {kind : PieceKind} {n : Nat}
    (h : PieceShape c rest kind n) : pieceAt c rest = .ok (kind, n) := by
  cases h with
  | blank gap => rw [pieceAt, if_pos gap]
  | comment starts length =>
    have hgap : ¬isGap c = true := by
      rcases startsComment_cases starts with rfl | rfl <;> decide
    rw [pieceAt, if_neg hgap, if_pos starts, length]
  | quoted quote length =>
    have hgap : ¬isGap c = true := by
      rcases isQuote_cases quote with rfl | rfl | rfl <;> decide
    have hcomment : ¬startsComment c rest = true := by
      rcases isQuote_cases quote with rfl | rfl | rfl <;> exact Bool.false_ne_true
    rw [pieceAt, if_neg hgap, if_neg hcomment, if_pos quote, length]
  | heredoc angle opened first length =>
    subst angle opened
    exact heredocPiece_eq_ok_iff.2 (Or.inr ⟨_, _, _, _, rfl, first, length, rfl, rfl⟩)
  | pair pair =>
    cases rest with
    | nil =>
      unfold pair? at pair
      split at pair <;> simp_all
    | cons d rest =>
      unfold pair? at pair
      split at pair <;> cases pair <;> rename_i hd <;> cases hd <;> rfl
  | punctuation single =>
    unfold punctuation? at single
    split at single <;> cases single <;> rfl
  | variableName dollar name =>
    subst dollar
    have hcomment : startsComment '$' rest = false := rfl
    have hpair : pair? '$' rest = none := rfl
    rw [pieceAt, if_neg (by decide), hcomment, if_neg Bool.false_ne_true, if_neg (by decide),
      if_neg fun hh => absurd hh.1 (by decide), hpair]
    exact if_pos ⟨rfl, name⟩
  | word char => exact pieceAt_of_isWordChar char rest
  | symbol gap comment quote heredoc pair single dollar char =>
    rw [pieceAt, gap, comment, quote, if_neg Bool.false_ne_true, if_neg Bool.false_ne_true,
      if_neg Bool.false_ne_true]
    by_cases hh : c = '<' ∧ rest.take 2 = ['<', '<']
    · rw [if_pos hh, heredocPiece_of_not_label fun hl => heredoc ⟨hh.1, hh.2, hl⟩]
    · rw [if_neg hh, pair, single]
      simp only
      rw [if_neg dollar, char, if_neg Bool.false_ne_true]

/-- **What `pieceAt` finds are the shapes of pieces.** -/
theorem pieceAt_eq_ok_iff {c : Char} {rest : Text} {kind : PieceKind} {n : Nat} :
    pieceAt c rest = .ok (kind, n) ↔ PieceShape c rest kind n :=
  ⟨pieceShape_of_pieceAt, PieceShape.pieceAt_eq⟩

/-! ### What follows a string -/

/-- A quoted string that ends within `x` does not depend on what follows `x`. -/
theorem PieceShape.quoted_append {c : Char} {x v : Text} {n : Nat} (quote : isQuote c = true)
    (length : quotedLength c (x ++ v) = some n) (hn : n ≤ x.length) (v' : Text) :
    PieceShape c (x ++ v') (.token .string) n := by
  have hq : c ≠ '\\' := by
    rintro rfl
    cases quote
  exact .quoted quote (quotedLength_append hq length hn v')

/-- Neither does a heredoc, as long as that does not go on with its label. -/
theorem PieceShape.heredoc_append {c : Char} {x v label head body : Text} {n : Nat}
    (angle : c = '<') (opened : x ++ v = '<' :: '<' :: (head ++ body))
    (first : IsHeredocHead label head) (length : heredocBodyLength label true body = some n)
    (hn : 2 + head.length + n ≤ x.length) {v' : Text} (hv : ¬v'.head?.any isWordChar) :
    PieceShape c (x ++ v') (.token .string) (2 + head.length + n) := by
  obtain ⟨r, rfl⟩ : '<' :: '<' :: head <+: x :=
    List.prefix_of_prefix_length_le ⟨body, opened.symm⟩ (List.prefix_append x v)
      (by simp only [List.length_cons]; omega)
  obtain rfl : r ++ v = body := by simpa using opened
  have hl := first.isLabel
  refine .heredoc angle (by simp) first
    (heredocBodyLength_append hl.ne_nil hl.newline_not_mem length ?_ hv)
  simp only [List.length_append, List.length_cons] at hn
  omega

/-! ### A piece lies within the text -/

/-- A piece parts the source in three. -/
theorem split_piece {source x rest : Text} {c : Char} (hs : source = x ++ c :: rest) (n : Nat) :
    source = x ++ ((c :: rest.take n) ++ rest.drop n) := by
  rw [hs, List.cons_append, List.take_append_drop]

/-- A line comment lies within the text. -/
theorem lineCommentLength_le (text : Text) : lineCommentLength text ≤ text.length := by
  induction text with
  | nil => exact Nat.le_refl 0
  | cons c rest ih =>
    rw [lineCommentLength, List.length_cons]
    split <;> omega

/-- A block comment lies within the text. -/
theorem blockCommentLength_le {text : Text} {n : Nat} (h : blockCommentLength text = some n) :
    n ≤ text.length := by
  induction text generalizing n with
  | nil => cases h
  | cons c rest ih =>
    rw [blockCommentLength] at h
    rw [List.length_cons]
    split at h
    · rename_i hc
      cases h
      cases rest with
      | nil => exact absurd hc.2 (by simp)
      | cons d rest => rw [List.length_cons]; omega
    · obtain ⟨m, hm, rfl⟩ := Option.map_eq_some_iff.1 h
      have := ih hm
      omega

/-- A comment lies within the text. -/
theorem commentLength_le {c : Char} {rest : Text} {n : Nat} (h : commentLength c rest = some n) :
    n ≤ rest.length := by
  unfold commentLength at h
  split at h
  · rename_i hc
    obtain ⟨m, hm, rfl⟩ := Option.map_eq_some_iff.1 h
    have := blockCommentLength_le hm
    cases rest with
    | nil => exact absurd hc.2 (by simp)
    | cons d rest => simpa using this
  · cases h
    exact lineCommentLength_le rest

/-- A quoted string ends with its quote. -/
theorem quotedLength_spec {quote : Char} {text : Text} {n : Nat}
    (h : quotedLength quote text = some n) : ∃ inner rest, text = inner ++ quote :: rest ∧
      n = inner.length + 1 := by
  fun_induction quotedLength quote text generalizing n with
  | case1 => cases h
  | case2 =>
    cases h
    exact ⟨[], [], rfl, rfl⟩
  | case3 => cases h
  | case4 d rest ih =>
    obtain ⟨m, hm, rfl⟩ := Option.map_eq_some_iff.1 h
    obtain ⟨inner, tail, rfl, rfl⟩ := ih hm
    exact ⟨'\\' :: d :: inner, tail, rfl, rfl⟩
  | case5 d rest =>
    cases h
    exact ⟨[], d :: rest, rfl, rfl⟩
  | case6 c d rest _ _ ih =>
    obtain ⟨m, hm, rfl⟩ := Option.map_eq_some_iff.1 h
    obtain ⟨inner, tail, he, rfl⟩ := ih hm
    exact ⟨c :: inner, tail, by rw [he]; rfl, rfl⟩

/-- A piece lies within the text. -/
theorem pieceAt_length_le {c : Char} {rest : Text} {kind : PieceKind} {n : Nat}
    (h : pieceAt c rest = .ok (kind, n)) : n ≤ rest.length := by
  cases pieceShape_of_pieceAt h with
  | blank | punctuation | symbol => exact Nat.zero_le _
  | comment _ hl => exact commentLength_le hl
  | quoted _ hl =>
    obtain ⟨inner, tail, rfl, rfl⟩ := quotedLength_spec hl
    simp
  | heredoc _ he _ hl =>
    obtain ⟨lines, tail, rfl, rfl⟩ := heredocBodyLength_spec hl
    rw [he]
    simp only [List.length_cons, List.length_append]
    omega
  | pair hk =>
    cases rest with
    | nil => simp [pair?] at hk
    | cons d rest => exact Nat.succ_le_succ (Nat.zero_le _)
  | variableName | word => exact (List.takeWhile_prefix _).length_le

/-! ### Tokens that are written in one way -/

/-- How a token of this kind is written, if there is only one way. -/
def spelling? : TokenKind → Option Text
  | .opening .square => some ['[']
  | .closing .square => some [']']
  | .opening .round => some ['(']
  | .closing .round => some [')']
  | .opening .curly => some ['\x7b']
  | .closing .curly => some ['\x7d']
  | .comma => some [',']
  | .semicolon => some [';']
  | .closeTag => some ['?', '>']
  | .doubleArrow => some ['=', '>']
  | .doubleColon => some [':', ':']
  | _ => none

/-- Punctuation is written as its character. -/
theorem spelling?_of_punctuation? {c : Char} {kind : TokenKind} (h : punctuation? c = some kind) :
    spelling? kind = some [c] := by
  unfold punctuation? at h
  split at h <;> cases h <;> rfl

/-- A pair is written as its two characters. -/
theorem spelling?_of_pair? {c : Char} {rest : Text} {kind : TokenKind}
    (h : pair? c rest = some kind) : ∃ d, rest.head? = some d ∧ spelling? kind = some [c, d] := by
  unfold pair? at h
  split at h <;> cases h <;> exact ⟨_, by assumption, rfl⟩

/-- A token with one spelling is written so. -/
theorem spelling?_of_pieceAt {c : Char} {rest : Text} {kind : TokenKind} {n : Nat} {spelled : Text}
    (h : pieceAt c rest = .ok (.token kind, n)) (hs : spelling? kind = some spelled) :
    c :: rest.take n = spelled := by
  have hshape := pieceShape_of_pieceAt h
  generalize hk : PieceKind.token kind = pieceKind at hshape
  cases hshape with
  | pair found =>
    cases hk
    obtain ⟨d, hd, hs'⟩ := spelling?_of_pair? found
    obtain ⟨w, rfl⟩ : ∃ w, rest = d :: w := by
      cases rest with
      | nil => cases hd
      | cons e w => cases hd; exact ⟨w, rfl⟩
    exact Option.some.inj (hs'.symm.trans hs)
  | punctuation found =>
    cases hk
    exact Option.some.inj ((spelling?_of_punctuation? found).symm.trans hs)
  | blank | comment => cases hk
  | _ => cases hk; cases hs

/-- A token with one spelling is found before every text. -/
theorem pieceAt_of_spelling? {kind : TokenKind} {spelled : Text}
    (hs : spelling? kind = some spelled) (w : Text) : ∃ c more, spelled = c :: more ∧
      pieceAt c (more ++ w) = .ok (.token kind, more.length) := by
  unfold spelling? at hs
  split at hs <;> cases hs <;> exact ⟨_, _, rfl, rfl⟩

/-! ### The end of a token -/

/-- A heredoc ends with its label. -/
theorem isWordChar_of_heredoc {label head body : Text} {n : Nat} (first : IsHeredocHead label head)
    (length : heredocBodyLength label true body = some n) {c b : Char}
    (hb : (c :: ('<' :: '<' :: (head ++ body)).take (2 + head.length + n)).getLast? = some b) :
    isWordChar b = true := by
  obtain ⟨lines, tail, rfl, rfl⟩ := heredocBodyLength_spec length
  have hne := first.isLabel.ne_nil
  have htake : ('<' :: '<' :: (head ++ (lines ++ (label ++ tail)))).take
      (2 + head.length + (lines.length + label.length)) = '<' :: '<' :: (head ++ lines) ++ label := by
    have hsplit : '<' :: '<' :: (head ++ (lines ++ (label ++ tail))) =
        ('<' :: '<' :: (head ++ lines) ++ label) ++ tail := by
      simp only [List.cons_append, List.append_assoc]
    rw [hsplit, List.take_left']
    simp only [List.length_cons, List.length_append]
    omega
  rw [htake, ← List.cons_append, List.getLast?_append, List.getLast?_eq_some_getLast hne,
    Option.some_or, ← List.getLast?_eq_some_getLast hne] at hb
  exact first.isLabel.2 b (List.mem_of_getLast? hb)

/-- A token of more than one character ends with a quote, a word character, or the second half of a
pair. -/
theorem pieceAt_getLast? {c : Char} {rest : Text} {kind : TokenKind} {n : Nat} {b : Char}
    (h : pieceAt c rest = .ok (.token kind, n)) (hb : (c :: rest.take n).getLast? = some b) :
    n = 0 ∨ isQuote b = true ∨ isWordChar b = true ∨ b = '>' ∨ b = ':' := by
  have hshape := pieceShape_of_pieceAt h
  generalize hk : PieceKind.token kind = pieceKind at hshape
  have htake : rest.take (rest.takeWhile isWordChar).length = rest.takeWhile isWordChar :=
    (List.prefix_iff_eq_take.1 (List.takeWhile_prefix _)).symm
  cases hshape with
  | blank | comment => cases hk
  | quoted hq hl =>
    obtain ⟨inner, tail, rfl, rfl⟩ := quotedLength_spec hl
    have he : (inner ++ c :: tail).take (inner.length + 1) = inner ++ [c] := by
      rw [List.take_length_add_append, List.take_succ_cons, List.take_zero]
    rw [he, ← List.cons_append, List.getLast?_concat, Option.some.injEq] at hb
    exact Or.inr (Or.inl (hb ▸ hq))
  | heredoc angle opened first length =>
    subst opened
    exact Or.inr (Or.inr (Or.inl (isWordChar_of_heredoc first length hb)))
  | pair found =>
    obtain ⟨d, hd, hs⟩ := spelling?_of_pair? found
    rw [spelling?_of_pieceAt h (by rw [← hs]; cases hk; rfl), List.getLast?_cons_cons,
      List.getLast?_singleton, Option.some.injEq] at hb
    subst hb
    refine Or.inr (Or.inr (Or.inr ?_))
    unfold pair? at found
    split at found
    · rename_i hgt
      exact Or.inl (Option.some.inj (hd.symm.trans hgt))
    · rename_i hgt
      exact Or.inl (Option.some.inj (hd.symm.trans hgt))
    · rename_i hcolon
      exact Or.inr (Option.some.inj (hd.symm.trans hcolon))
    · cases found
  | punctuation | symbol => exact Or.inl rfl
  | variableName =>
    rw [htake] at hb
    cases hname : rest.takeWhile isWordChar with
    | nil => exact Or.inl rfl
    | cons d name =>
      rw [hname, List.getLast?_cons_cons, ← hname] at hb
      exact Or.inr (Or.inr (Or.inl (List.mem_takeWhile_imp (List.mem_of_getLast? hb))))
  | word char =>
    rw [htake] at hb
    have hall : ∀ d ∈ c :: rest.takeWhile isWordChar, isWordChar d = true :=
      List.forall_mem_cons.2 ⟨char, fun d hd => List.mem_takeWhile_imp hd⟩
    exact Or.inr (Or.inr (Or.inl (hall b (List.mem_of_getLast? hb))))

/-- No token ends with a carriage return. -/
theorem pieceAt_getLast?_ne {c : Char} {rest : Text} {kind : TokenKind} {n : Nat}
    (h : pieceAt c rest = .ok (.token kind, n)) : (c :: rest.take n).getLast? ≠ some '\r' := by
  intro hlast
  rcases pieceAt_getLast? h hlast with rfl | hquote | hword | hgt | hcolon
  · obtain rfl : c = '\r' := Option.some.inj hlast
    rw [(PieceShape.blank rfl).pieceAt_eq] at h
    cases h
  · exact absurd hquote (by decide)
  · exact absurd hword (by decide)
  · exact absurd hgt (by decide)
  · exact absurd hcolon (by decide)

end Script
end Scaffold

/-
# Scanning byte by byte

The scanner may be run on the octets of a text. It looks for ASCII characters and treats all wide
ones alike:

| scanner | what a wide character does |
| --- | --- |
| comment | it goes on |
| quoted string | it goes on; behind a backslash one octet is skipped, and the others go on |
| heredoc | it ends no line and is no indentation |
| word, label | it goes on |

So each scanner takes as many octets as the characters that it takes have, and wherever a step from
octet to octet ends, a character ends too. Main statement: the pieces of the octets are the octets
of the pieces, and a fault is found where the octets of the character at fault start
(`pieces_octets`).
-/

import Scaffold.Proofs.Scan.Octets
import Scaffold.Proofs.Scan.Pieces

namespace Scaffold
namespace Script

/-! ### Wide characters -/

section
variable {w : Text}

/-- A wide character is none of the ASCII characters. -/
theorem ne_of_isWide {c a : Char} (hc : isWide c = true) (ha : isWide a = false) : c ≠ a := by
  rintro rfl
  rw [ha] at hc
  cases hc

/-- One more step behind `n` of them. -/
theorem map_add_succ (found : Option Nat) (n : Nat) :
    (found.map (n + ·)).map (· + 1) = found.map (n + 1 + ·) := by
  rw [Option.map_map]
  exact congrArg (Option.map · found) (funext fun k => Nat.add_right_comm n k 1)

/-- A line comment goes on over wide characters. -/
theorem lineCommentLength_wide (hw : ∀ d ∈ w, isWide d = true) (text : Text) :
    lineCommentLength (w ++ text) = w.length + lineCommentLength text := by
  induction w with
  | nil => exact (Nat.zero_add _).symm
  | cons d w ih =>
    obtain ⟨hd, hw⟩ := List.forall_mem_cons.1 hw
    have hne : ¬(d = '\n' ∨ d = '?' ∧ (w ++ text).head? = some '>') := fun h =>
      h.elim (ne_of_isWide hd rfl) fun h => ne_of_isWide hd rfl h.1
    rw [List.cons_append, lineCommentLength, if_neg hne, ih hw, List.length_cons]
    omega

/-- So does a block comment. -/
theorem blockCommentLength_wide (hw : ∀ d ∈ w, isWide d = true) (text : Text) :
    blockCommentLength (w ++ text) = (blockCommentLength text).map (w.length + ·) := by
  induction w with
  | nil => simp
  | cons d w ih =>
    obtain ⟨hd, hw⟩ := List.forall_mem_cons.1 hw
    have hne : ¬(d = '*' ∧ (w ++ text).head? = some '/') := fun h => ne_of_isWide hd rfl h.1
    rw [List.cons_append, blockCommentLength, if_neg hne, ih hw, map_add_succ, List.length_cons]

/-- A quoted string looks at its first character alone, unless that is a backslash. -/
theorem quotedLength_cons {quote c : Char} (hc : c ≠ '\\') (text : Text) :
    quotedLength quote (c :: text) =
      if c = quote then some 1 else (quotedLength quote text).map (· + 1) := by
  cases text with
  | nil => rfl
  | cons d rest => rw [quotedLength, if_neg hc]

/-- A quoted string ends with the quote. -/
theorem quotedLength_self {quote : Char} (hq : quote ≠ '\\') (text : Text) :
    quotedLength quote (quote :: text) = some 1 := by
  rw [quotedLength_cons hq, if_pos rfl]

/-- A quoted string goes on over wide characters. -/
theorem quotedLength_wide (hw : ∀ d ∈ w, isWide d = true) {quote : Char}
    (hq : isWide quote = false) (text : Text) :
    quotedLength quote (w ++ text) = (quotedLength quote text).map (w.length + ·) := by
  induction w with
  | nil => simp
  | cons d w ih =>
    obtain ⟨hd, hw⟩ := List.forall_mem_cons.1 hw
    rw [List.cons_append, quotedLength_cons (ne_of_isWide hd rfl), if_neg (ne_of_isWide hd hq),
      ih hw, map_add_succ, List.length_cons]

/-- A line of a heredoc goes on over wide characters. -/
theorem heredocBodyLength_wide (hw : ∀ d ∈ w, isWide d = true) (label text : Text) :
    heredocBodyLength label false (w ++ text) =
      (heredocBodyLength label false text).map (w.length + ·) := by
  induction w with
  | nil => simp
  | cons d w ih =>
    obtain ⟨hd, hw⟩ := List.forall_mem_cons.1 hw
    have hline : (d == '\n') = false := beq_false_of_ne (ne_of_isWide hd rfl)
    rw [List.cons_append, heredocBodyLength, Bool.false_and, if_neg Bool.false_ne_true, hline,
      ih hw, map_add_succ, List.length_cons]

end

/-! ### Comments -/

/-- A line comment has the octets of its characters. -/
theorem lineCommentLength_octets (text : Text) :
    lineCommentLength (octets text) = byteOffset text (lineCommentLength text) := by
  induction text with
  | nil => rfl
  | cons c rest ih =>
    cases hc : isWide c with
    | false =>
      have hhead := head?_octets_iff (a := '>') rfl rest
      simp only [octets_cons_ascii hc, lineCommentLength, hhead, ih]
      split
      · rfl
      · rw [byteOffset_cons_ascii hc]
    | true =>
      have hone : lineCommentLength (c :: rest) = lineCommentLength rest + 1 :=
        if_neg fun h => h.elim (ne_of_isWide hc rfl) fun h => ne_of_isWide hc rfl h.1
      rw [octets_cons, lineCommentLength_wide (isWide_octets hc), hone, byteOffset_cons, ih]

/-- A step over one character and a step over its octets, each before the same steps. -/
theorem map_byteOffset_cons (c : Char) (rest : Text) (found : Option Nat) :
    (found.map (· + 1)).map (byteOffset (c :: rest)) =
      (found.map (byteOffset rest)).map ((octets [c]).length + ·) := by
  rw [Option.map_map, Option.map_map]
  exact congrArg (Option.map · found) (funext fun n => byteOffset_cons c rest n)

/-- A step over an ASCII character. -/
theorem map_byteOffset_cons_ascii {c : Char} (hc : isWide c = false) (rest : Text)
    (found : Option Nat) :
    (found.map (· + 1)).map (byteOffset (c :: rest)) =
      (found.map (byteOffset rest)).map (· + 1) := by
  rw [Option.map_map, Option.map_map]
  exact congrArg (Option.map · found) (funext fun n => byteOffset_cons_ascii hc rest n)

/-- A block comment has the octets of its characters. -/
theorem blockCommentLength_octets (text : Text) :
    blockCommentLength (octets text) = (blockCommentLength text).map (byteOffset text) := by
  induction text with
  | nil => rfl
  | cons c rest ih =>
    cases hc : isWide c with
    | false =>
      have hhead := head?_octets_iff (a := '/') rfl rest
      simp only [octets_cons_ascii hc, blockCommentLength, hhead, ih]
      split
      · rename_i hend
        obtain ⟨d, hd⟩ := List.head?_eq_some_iff.1 hend.2
        rw [hd, Option.map_some, byteOffset_cons_ascii hc, byteOffset_cons_ascii rfl]
        rfl
      · rw [map_byteOffset_cons_ascii hc]
    | true =>
      have hone : blockCommentLength (c :: rest) = (blockCommentLength rest).map (· + 1) :=
        if_neg fun h => ne_of_isWide hc rfl h.1
      rw [octets_cons, blockCommentLength_wide (isWide_octets hc), hone, map_byteOffset_cons, ih]

/-- A comment starts in the octets where one starts in the text. -/
theorem startsComment_octets (c : Char) (rest : Text) :
    startsComment c (octets rest) = startsComment c rest := by
  have hhead : ∀ {a : Char}, isWide a = false →
      decide ((octets rest).head? = some a) = decide (rest.head? = some a) :=
    fun ha => decide_eq_decide.2 (head?_octets_iff ha rest)
  have hbracket : ((octets rest).head? != some '[') = (rest.head? != some '[') := by
    rw [Bool.eq_iff_iff, bne_iff_ne, bne_iff_ne, Ne, Ne, head?_octets_iff rfl]
  rw [startsComment, startsComment, hhead rfl, hhead rfl, hbracket]

/-- A comment has the octets of its characters. -/
theorem commentLength_octets (c : Char) (rest : Text) :
    commentLength c (octets rest) = (commentLength c rest).map (byteOffset rest) := by
  have hhead := head?_octets_iff (a := '*') rfl rest
  simp only [commentLength, hhead]
  split
  · rename_i hblock
    obtain ⟨text, rfl⟩ := List.head?_eq_some_iff.1 hblock.2
    rw [octets_cons_ascii rfl, List.tail_cons, List.tail_cons, blockCommentLength_octets,
      map_byteOffset_cons_ascii rfl]
  · rw [Option.map_some, lineCommentLength_octets]

/-! ### Strings -/

/-- The quote that ends a string is one octet. -/
theorem quotedLength_octets_self {quote : Char} (hq : isWide quote = false) (hc : quote ≠ '\\')
    (rest : Text) :
    quotedLength quote (octets (quote :: rest)) =
      (quotedLength quote (quote :: rest)).map (byteOffset (quote :: rest)) := by
  rw [octets_cons_ascii hq, quotedLength_self hc, quotedLength_self hc, Option.map_some,
    byteOffset_cons_ascii hq, byteOffset_zero]

/-- A quoted string goes on over the octets of a character that is no quote and no backslash. -/
theorem quotedLength_octets_cons {quote c : Char} (hq : isWide quote = false) (hc : c ≠ '\\')
    (hne : c ≠ quote) {rest : Text}
    (ih : quotedLength quote (octets rest) = (quotedLength quote rest).map (byteOffset rest)) :
    quotedLength quote (octets (c :: rest)) =
      (quotedLength quote (c :: rest)).map (byteOffset (c :: rest)) := by
  rw [quotedLength_cons hc, if_neg hne]
  cases hwide : isWide c with
  | false =>
    rw [octets_cons_ascii hwide, quotedLength_cons hc, if_neg hne, ih,
      map_byteOffset_cons_ascii hwide]
  | true =>
    rw [octets_cons, quotedLength_wide (isWide_octets hwide) hq, ih, map_byteOffset_cons]

/-- A backslash guards the first octet of the character behind it, and the string goes on over the
others. -/
theorem quotedLength_octets_guarded {quote : Char} (hq : isWide quote = false) (d : Char)
    {rest : Text}
    (ih : quotedLength quote (octets rest) = (quotedLength quote rest).map (byteOffset rest)) :
    quotedLength quote (octets ('\\' :: d :: rest)) =
      (quotedLength quote ('\\' :: d :: rest)).map (byteOffset ('\\' :: d :: rest)) := by
  obtain ⟨x, more, hd, -, hmore⟩ := exists_octets_singleton d
  rw [octets_cons_ascii rfl, octets_cons, hd, List.cons_append, quotedLength, if_pos rfl,
    quotedLength_wide hmore hq, quotedLength, if_pos rfl, ih]
  simp only [Option.map_map]
  refine congrArg (Option.map · _) (funext fun n => ?_)
  show more.length + byteOffset rest n + 2 = byteOffset ('\\' :: d :: rest) (n + 2)
  rw [byteOffset_cons_ascii rfl, byteOffset_cons, hd, List.length_cons]
  omega

/-- A quoted string has the octets of its characters. -/
theorem quotedLength_octets {quote : Char} (hq : isQuote quote = true) (text : Text) :
    quotedLength quote (octets text) = (quotedLength quote text).map (byteOffset text) := by
  have hascii : isWide quote = false := by
    rcases isQuote_cases hq with rfl | rfl | rfl <;> rfl
  have hguard : quote ≠ '\\' := by
    rintro rfl
    cases hq
  induction text using quotedLength.induct quote with
  | case1 => rfl
  | case2 => exact quotedLength_octets_self hascii hguard []
  | case3 c hne =>
    by_cases hc : c = '\\'
    · -- nothing stands behind the backslash
      subst hc
      rw [octets_singleton rfl, quotedLength, if_neg hne]
      rfl
    · exact quotedLength_octets_cons hascii hc hne rfl
  | case4 d rest ih => exact quotedLength_octets_guarded hascii d ih
  | case5 d rest => exact quotedLength_octets_self hascii hguard (d :: rest)
  | case6 c d rest hc hne ih => exact quotedLength_octets_cons hascii hc hne ih

/-! ### Heredocs -/

/-- A line of octets ends a heredoc just in case the line of characters does. -/
theorem closesHeredoc_octets (label line : Text) :
    closesHeredoc (octets label) (octets line) = closesHeredoc label line := by
  rw [closesHeredoc, closesHeredoc, dropWhile_octets uniform_isIndent]
  generalize line.dropWhile Text.isIndent = body
  by_cases hlabel : label <+: body
  · obtain ⟨rest, rfl⟩ := hlabel
    have hstart : label.isPrefixOf (label ++ rest) = true :=
      List.isPrefixOf_iff_prefix.2 (List.prefix_append label rest)
    have hoctets : (octets label).isPrefixOf (octets (label ++ rest)) = true :=
      List.isPrefixOf_iff_prefix.2 (octets_prefix_iff.2 (List.prefix_append label rest))
    rw [hstart, hoctets, octets_append, List.drop_left, List.drop_left,
      any_head?_octets uniform_isWordChar]
  · have hstart : label.isPrefixOf body = false :=
      Bool.eq_false_iff.2 fun h => hlabel (List.isPrefixOf_iff_prefix.1 h)
    have hoctets : (octets label).isPrefixOf (octets body) = false :=
      Bool.eq_false_iff.2 fun h => hlabel (octets_prefix_iff.1 (List.isPrefixOf_iff_prefix.1 h))
    rw [hstart, hoctets, Bool.false_and, Bool.false_and]

/-- The indentation and the label at the end of a heredoc. -/
theorem byteOffset_label {label line : Text} (h : closesHeredoc label line = true) :
    byteOffset line ((line.takeWhile Text.isIndent).length + label.length) =
      ((octets line).takeWhile Text.isIndent).length + (octets label).length := by
  rw [closesHeredoc, Bool.and_eq_true, List.isPrefixOf_iff_prefix] at h
  obtain ⟨rest, hrest⟩ := h.1
  have hline := List.takeWhile_append_dropWhile (p := Text.isIndent) (l := line)
  rw [← hrest] at hline
  rw [takeWhile_octets uniform_isIndent]
  generalize line.takeWhile Text.isIndent = blanks at hline
  rw [← hline, byteOffset_append, byteOffset_length]

/-- The body of a heredoc has the octets of its characters. -/
theorem heredocBodyLength_octets (label : Text) (fresh : Bool) (text : Text) :
    heredocBodyLength (octets label) fresh (octets text) =
      (heredocBodyLength label fresh text).map (byteOffset text) := by
  induction text generalizing fresh with
  | nil => rfl
  | cons c rest ih =>
    obtain ⟨x, more, hc, hx, hmore⟩ := exists_octets_singleton c
    have hcons : octets (c :: rest) = x :: (more ++ octets rest) := by
      rw [octets_cons, hc]
      rfl
    have hcloses := closesHeredoc_octets label (c :: rest)
    rw [hcons] at hcloses ⊢
    rw [heredocBodyLength, heredocBodyLength, hcloses]
    split
    · rename_i hend
      rw [Bool.and_eq_true] at hend
      rw [Option.map_some, byteOffset_label hend.2, hcons]
    · cases hwide : isWide c with
      | false =>
        have hone := octets_singleton hwide
        rw [hc] at hone
        obtain ⟨rfl, rfl⟩ := List.cons.inj hone
        rw [List.nil_append, ih, map_byteOffset_cons_ascii hwide]
      | true =>
        have hline : ∀ d, isWide d = true → (d == '\n') = false := uniform_eq rfl
        rw [hline x (hx.trans hwide), hline c hwide, heredocBodyLength_wide hmore, ih,
          map_byteOffset_cons, hc, map_add_succ, List.length_cons]

/-- A label has the octets of a label. -/
theorem IsLabel.octets {label : Text} (h : IsLabel label) : IsLabel (octets label) := by
  refine ⟨?_, ?_⟩
  · rw [any_head?_octets uniform_isNameStart]
    exact h.1
  · have hrun := takeWhile_octets uniform_isWordChar label
    rw [List.takeWhile_eq_self_iff.2 h.2] at hrun
    exact List.takeWhile_eq_self_iff.1 hrun

/-- Blanks, quotes and the end of a line are ASCII characters. -/
theorem octets_blanks {blanks : Text} (h : ∀ c ∈ blanks, Text.isIndent c = true) :
    octets blanks = blanks := by
  refine octets_of_ascii (List.any_eq_false.2 fun c hc hwide => ?_)
  have hindent := uniform_isIndent c hwide
  rw [h c hc] at hindent
  cases hindent

/-- A quote around a label is its own octets. -/
theorem IsLabelQuote.octets {quote : Text} (h : IsLabelQuote quote) : octets quote = quote := by
  rcases h with rfl | rfl | rfl <;> exact octets_of_ascii rfl

/-- What ends the line of a label. -/
theorem OptionalReturn.octets {cr : Text} (h : OptionalReturn cr) (body : Text) :
    octets (cr ++ '\n' :: body) = cr ++ '\n' :: octets body := by
  rw [octets_append, octets_cons_ascii rfl]
  rcases h with rfl | rfl <;> rfl

/-- The quote before a label is the first octet just in case it is the first character. -/
theorem labelQuote_octets (opened : Text) : labelQuote (octets opened) = labelQuote opened := by
  cases opened with
  | nil => rfl
  | cons c opened =>
    obtain ⟨x, more, hc, hx, -⟩ := exists_octets_singleton c
    cases hwide : isWide c with
    | false => rw [octets_cons_ascii hwide]; rfl
    | true =>
      have hquote : Uniform (fun c => c == '\x27' || c == '\x22') false :=
        (uniform_eq rfl).or (uniform_eq rfl)
      have hnone : ∀ d, isWide d = true → ∀ z, labelQuote (d :: z) = [] := fun d hd z =>
        List.filter_cons_of_neg (Bool.eq_false_iff.1 (hquote d hd))
      rw [octets_cons, hc, List.cons_append, hnone x (hx.trans hwide), hnone c hwide]

/-- The octets behind the blanks and the quote before a label. -/
theorem labelStart_octets (rest : Text) : labelStart (octets rest) = octets (labelStart rest) := by
  simp only [labelStart, dropWhile_octets uniform_isIndent, labelQuote_octets]
  generalize rest.dropWhile Text.isIndent = opened
  have hwidth : byteOffset opened (labelQuote opened).length = (labelQuote opened).length := by
    have h := byteOffset_length (labelQuote opened) (opened.drop (labelQuote opened).length)
    rwa [labelQuote_append_drop, (isLabelQuote_labelQuote opened).octets] at h
  rw [← drop_octets, hwidth]

/-- The octets of the first line of a heredoc. -/
theorem octets_heredocHead {blanks quote label cr : Text}
    (hb : ∀ c ∈ blanks, Text.isIndent c = true) (hq : IsLabelQuote quote)
    (hcr : OptionalReturn cr) (body : Text) :
    octets (blanks ++ (quote ++ (label ++ (quote ++ (cr ++ '\n' :: body))))) =
      blanks ++ (quote ++ (octets label ++ (quote ++ (cr ++ '\n' :: octets body)))) := by
  rw [octets_append, octets_append, octets_append, octets_append, octets_blanks hb, hq.octets,
    hcr.octets]

/-- The first line of a heredoc has the octets of its characters. -/
theorem byteOffset_heredocHead {blanks quote label cr : Text}
    (hb : ∀ c ∈ blanks, Text.isIndent c = true) (hq : IsLabelQuote quote)
    (hcr : OptionalReturn cr) (body : Text) (n : Nat) :
    byteOffset ('<' :: '<' :: (blanks ++ (quote ++ (label ++ (quote ++ (cr ++ '\n' :: body))))))
        (2 + (blanks ++ (quote ++ (label ++ (quote ++ (cr ++ ['\n']))))).length + n) =
      2 + (blanks ++ (quote ++ (octets label ++ (quote ++ (cr ++ ['\n']))))).length +
        byteOffset body n := by
  have hline : octets (blanks ++ (quote ++ (label ++ (quote ++ (cr ++ ['\n']))))) =
      blanks ++ (quote ++ (octets label ++ (quote ++ (cr ++ ['\n'])))) :=
    octets_heredocHead hb hq hcr []
  have htext : blanks ++ (quote ++ (label ++ (quote ++ (cr ++ '\n' :: body)))) =
      (blanks ++ (quote ++ (label ++ (quote ++ (cr ++ ['\n']))))) ++ body := by
    simp
  rw [htext, ← hline]
  generalize blanks ++ (quote ++ (label ++ (quote ++ (cr ++ ['\n'])))) = head
  have hcount : 2 + head.length + n = (head.length + n) + 1 + 1 := by omega
  rw [hcount, byteOffset_cons_ascii rfl, byteOffset_cons_ascii rfl, byteOffset_append]
  omega

/-- Where the octets behind a label end its line, so do the characters. -/
theorem lineEnd_of_octets {quote ended : Text} (hq : IsLabelQuote quote)
    (h : ∃ cr body, OptionalReturn cr ∧ octets ended = quote ++ (cr ++ '\n' :: body)) :
    ∃ cr body, OptionalReturn cr ∧ ended = quote ++ (cr ++ '\n' :: body) := by
  obtain ⟨cr, body, hcr, he⟩ := h
  have hascii : octets (quote ++ (cr ++ ['\n'])) = quote ++ (cr ++ ['\n']) := by
    rw [octets_append, hq.octets, hcr.octets]
    rfl
  have hstart : octets (quote ++ (cr ++ ['\n'])) <+: octets ended :=
    ⟨body, by rw [hascii, he]; simp⟩
  obtain ⟨body, rfl⟩ := octets_prefix_iff.1 hstart
  exact ⟨cr, body, hcr, by simp⟩

/-- What three angle signs start in the octets is what they start in the text. -/
theorem heredocPiece_octets (rest : Text) :
    heredocPiece (octets rest) =
      (heredocPiece rest).map (Prod.map id (byteOffset ('<' :: '<' :: rest))) := by
  by_cases hs : (labelStart rest).head?.any isNameStart
  · obtain ⟨blanks, quote, label, ended, rfl, hb, hq, hl, he⟩ := exists_label hs
    by_cases hline : ∃ cr body, OptionalReturn cr ∧ ended = quote ++ (cr ++ '\n' :: body)
    · obtain ⟨cr, body, hcr, rfl⟩ := hline
      rw [octets_heredocHead hb hq hcr, heredocPiece_head hb hq hl.octets hcr,
        heredocPiece_head hb hq hl hcr, heredocBodyLength_octets]
      cases heredocBodyLength label true body with
      | none => rfl
      | some more =>
        refine congrArg (fun n => Except.ok (PieceKind.token .string, n)) ?_
        exact (byteOffset_heredocHead hb hq hcr body more).symm
    · have hended : ¬(octets ended).head?.any isWordChar := by
        rwa [any_head?_octets uniform_isWordChar]
      have hoctets := fun h => hline (lineEnd_of_octets hq h)
      rw [octets_append, octets_append, octets_append, octets_blanks hb, hq.octets,
        heredocPiece_malformed hb hq hl.octets hended hoctets,
        heredocPiece_malformed hb hq hl he hline]
      rfl
  · have hoctets : ¬(labelStart (octets rest)).head?.any isNameStart := by
      rwa [labelStart_octets, any_head?_octets uniform_isNameStart]
    rw [heredocPiece_of_not_label hs, heredocPiece_of_not_label hoctets]
    rfl

/-! ### Pieces -/

/-- No pair of characters has a wide one. -/
theorem pair?_wide (c : Char) {d : Char} (hd : isWide d = true) (rest : Text) :
    pair? c (d :: rest) = none := by
  have hne : ∀ {a : Char}, isWide a = false → (d :: rest).head? ≠ some a := fun ha h =>
    ne_of_isWide hd ha (Option.some.inj h)
  unfold pair?
  split
  · exact absurd ‹_› (hne rfl)
  · exact absurd ‹_› (hne rfl)
  · exact absurd ‹_› (hne rfl)
  · rfl

/-- A pair of characters starts in the octets where it starts in the text. -/
theorem pair?_octets (c : Char) (rest : Text) : pair? c (octets rest) = pair? c rest := by
  cases rest with
  | nil => rfl
  | cons d rest =>
    cases hd : isWide d with
    | false => rw [octets_cons_ascii hd]; rfl
    | true =>
      obtain ⟨x, more, hx, hwide, -⟩ := exists_octets_singleton d
      rw [octets_cons, hx, List.cons_append, pair?_wide c (hwide.trans hd), pair?_wide c hd]

/-- The second character of a pair is one octet. -/
theorem byteOffset_pair {c : Char} {rest : Text} {kind : TokenKind}
    (h : pair? c rest = some kind) : byteOffset rest 1 = 1 := by
  cases rest with
  | nil =>
    obtain ⟨d, hd, -⟩ := spelling?_of_pair? h
    cases hd
  | cons d rest =>
    cases hd : isWide d with
    | false => exact byteOffset_cons_ascii hd rest 0
    | true =>
      rw [pair?_wide c hd] at h
      cases h

/-- What starts with a character before the octets of a text is what starts with it before the
text. -/
theorem pieceAt_octets_rest (c : Char) (rest : Text) :
    pieceAt c (octets rest) = (pieceAt c rest).map (Prod.map id (byteOffset rest)) := by
  have hangles := take_octets_iff (a := ['<', '<']) rfl rest
  simp only [List.length_cons, List.length_nil, Nat.zero_add, Nat.reduceAdd] at hangles
  simp only [pieceAt, startsComment_octets, commentLength_octets, hangles, pair?_octets,
    any_head?_octets uniform_isNameStart, takeWhile_octets uniform_isWordChar]
  split
  · rfl
  split
  · cases commentLength c rest <;> rfl
  split
  · rename_i hq
    rw [quotedLength_octets hq]
    cases quotedLength c rest <;> rfl
  split
  · rename_i hh
    obtain ⟨body, rfl⟩ := List.prefix_iff_eq_take.2 hh.2.symm
    rw [octets_append, octets_of_ascii rfl]
    exact heredocPiece_octets body
  split
  · rename_i kind hpair
    refine congrArg (fun n => Except.ok (PieceKind.token kind, n)) ?_
    exact (byteOffset_pair hpair).symm
  · rfl
  split
  · refine congrArg (fun n => Except.ok (PieceKind.token .variableName, n)) ?_
    exact (byteOffset_takeWhile isWordChar rest).symm
  split
  · refine congrArg (fun n => Except.ok (PieceKind.token .word, n)) ?_
    exact (byteOffset_takeWhile isWordChar rest).symm
  · rfl

/-- **What starts in the octets of a text** is what starts in the text, with all octets of the
characters that it takes. -/
theorem pieceAt_octets (c : Char) (rest : Text) :
    ∃ d more, octets (c :: rest) = d :: more ∧ pieceAt d more =
      (pieceAt c rest).map (Prod.map id fun n => byteOffset (c :: rest) (n + 1) - 1) := by
  cases hc : isWide c with
  | false =>
    refine ⟨c, octets rest, octets_cons_ascii hc rest, ?_⟩
    have hcount : (fun n => byteOffset (c :: rest) (n + 1) - 1) = byteOffset rest :=
      funext fun n => by rw [byteOffset_cons_ascii hc, Nat.add_sub_cancel]
    rw [hcount, pieceAt_octets_rest]
  | true =>
    obtain ⟨d, more, hd, hwide, hmore⟩ := exists_octets_singleton c
    refine ⟨d, more ++ octets rest, by rw [octets_cons, hd]; rfl, ?_⟩
    have hrun : (more ++ octets rest).takeWhile isWordChar =
        more ++ octets (rest.takeWhile isWordChar) := by
      rw [List.takeWhile_append_of_pos fun x hx => uniform_isWordChar x (hmore x hx),
        takeWhile_octets uniform_isWordChar]
    rw [pieceAt_of_isWordChar (uniform_isWordChar d (hwide.trans hc)),
      pieceAt_of_isWordChar (uniform_isWordChar c hc), hrun]
    refine congrArg (fun n => Except.ok (PieceKind.token .word, n)) ?_
    show _ = byteOffset (c :: rest) ((rest.takeWhile isWordChar).length + 1) - 1
    rw [byteOffset_cons, byteOffset_takeWhile, hd, List.length_append, List.length_cons]
    omega

/-- A piece of the text is a piece of the octets: its octets, before those of what follows it. -/
theorem pieceAt_octets_ok {c : Char} {rest : Text} {kind : PieceKind} {n : Nat}
    (h : pieceAt c rest = .ok (kind, n)) :
    ∃ d more m, octets (c :: rest) = d :: more ∧ pieceAt d more = .ok (kind, m) ∧
      d :: more.take m = octets (c :: rest.take n) ∧ more.drop m = octets (rest.drop n) := by
  obtain ⟨d, more, hcons, hpiece⟩ := pieceAt_octets c rest
  rw [h] at hpiece
  obtain ⟨m, hm⟩ : ∃ m, byteOffset (c :: rest) (n + 1) = m + 1 := by
    have hpos := List.length_pos_iff.2 (octets_singleton_ne_nil c)
    refine Nat.exists_eq_add_one.2 ?_
    rw [byteOffset_cons]
    omega
  have htake := take_octets (c :: rest) (n + 1)
  have hdrop := drop_octets (c :: rest) (n + 1)
  rw [hm, hcons] at htake hdrop
  refine ⟨d, more, m, hcons, ?_, htake, hdrop⟩
  rw [hpiece]
  show Except.ok (kind, byteOffset (c :: rest) (n + 1) - 1) = Except.ok (kind, m)
  rw [hm, Nat.add_sub_cancel]

/-- Where the text has a fault, so have the octets. -/
theorem pieceAt_octets_error {c : Char} {rest : Text} {fault : Fault}
    (h : pieceAt c rest = .error fault) :
    ∃ d more, octets (c :: rest) = d :: more ∧ pieceAt d more = .error fault := by
  obtain ⟨d, more, hcons, hpiece⟩ := pieceAt_octets c rest
  exact ⟨d, more, hcons, by rw [hpiece, h]; rfl⟩

/-- The octets of a piece. -/
def Piece.inOctets (p : Piece) : Piece := ⟨p.kind, octets p.text⟩

/-- A fault, where it is found in the bytes of the source text. -/
def FaultAt.inBytes (source : Text) (found : FaultAt) : FaultAt :=
  ⟨found.fault, byteOffset source found.offset⟩

/-- **The pieces of the octets are the octets of the pieces.**  Where the text has a fault, the
octets have it at the same character. -/
theorem pieces_octets {source x text : Text} (hs : source = x ++ text) :
    pieces (octets x).length (octets text) =
      ((pieces x.length text).map (List.map Piece.inOctets)).mapError (FaultAt.inBytes source) := by
  generalize hoffset : x.length = offset
  fun_induction pieces offset text generalizing x with
  | case1 =>
    rw [octets_nil, pieces]
    rfl
  | case2 offset c rest fault hstep =>
    obtain ⟨d, more, hcons, hpiece⟩ := pieceAt_octets_error hstep
    rw [hcons, pieces, hpiece]
    refine congrArg (fun n => Except.error (FaultAt.mk fault n)) ?_
    show (octets x).length = byteOffset source offset
    rw [hs, ← hoffset, byteOffset_length]
  | case3 offset c rest n hstep =>
    obtain ⟨d, more, m, hcons, hpiece, htake, hdrop⟩ := pieceAt_octets_ok hstep
    rw [hcons, pieces, hpiece]
    simp only [htake, hdrop, if_true]
    rfl
  | case4 offset c rest kind n hstep piece hk =>
    rename_i ih
    obtain ⟨d, more, m, hcons, hpiece, htake, hdrop⟩ := pieceAt_octets_ok hstep
    have hsplit : source = (x ++ piece.text) ++ rest.drop n := by
      rw [split_piece hs n, List.append_assoc]
    have hlater := ih hsplit (by rw [List.length_append, hoffset])
    rw [octets_append, List.length_append] at hlater
    rw [hcons, pieces, hpiece]
    simp only [htake, hdrop, if_neg hk]
    rw [hlater]
    cases pieces (offset + piece.text.length) (rest.drop n) <;> rfl

end Script
end Scaffold

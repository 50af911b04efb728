/-
# The contents of strings and comments

A string between apostrophes and a comment take what stands inside them as it is. There are four
ways to enclose a text (`Enclosure`):

| enclosure | from | to | the text inside holds |
| --- | --- | --- | --- |
| quoted | an apostrophe | an apostrophe | no apostrophe and no backslash |
| block | `/*` | `*/` | no `*/` |
| slashes | `//` | before the end of the line | no newline and no `?>` |
| hash | `#` | before the end of the line | no newline, no `?>`, and no `[` at its head |

With another text inside, the enclosure ends where the text does (`Enclosure.cut_around`), and what
stands before it is cut as it was (`Cut.reread`). There is one exception: behind three angle signs,
a string that starts like a name is the label of a heredoc. Main statement: apart from that
exception, the pieces of a source text are the same with another text inside one of them
(`scan_around`), which may be any comment and any string between apostrophes (`exists_around`).
-/

import Mathlib.Data.List.Infix
import Scaffold.Proofs.Scan.Lossless

namespace Scaffold
namespace Script

/-- How a text is enclosed as a whole. -/
inductive Enclosure where
  /-- A string between apostrophes. -/
  | quoted
  /-- A comment that may go over several lines. -/
  | block
  /-- A comment from two slashes to the end of the line. -/
  | slashes
  /-- A comment from a hash sign to the end of the line. -/
  | hash
deriving DecidableEq, Repr

namespace Enclosure

/-- What stands before an enclosed text. -/
def opener : Enclosure → Text
  | .quoted => ['\x27']
  | .block => ['/', '*']
  | .slashes => ['/', '/']
  | .hash => ['#']

/-- What stands behind an enclosed text. A line comment has no closer. -/
def closer : Enclosure → Text
  | .quoted => ['\x27']
  | .block => ['*', '/']
  | .slashes | .hash => []

/-- The kind of piece that an enclosed text is with its opener and closer. -/
def kind : Enclosure → PieceKind
  | .quoted => .token .string
  | .block | .slashes | .hash => .comment

/-- The texts that go on to the closer of the enclosure, or to the end of the line. -/
def Holds : Enclosure → Text → Prop
  | .quoted, body => '\x27' ∉ body ∧ '\\' ∉ body
  | .block, body => ¬['*', '/'] <:+: body
  | .slashes, body => '\n' ∉ body ∧ ¬['?', '>'] <:+: body
  | .hash, body => ('\n' ∉ body ∧ ¬['?', '>'] <:+: body) ∧ body.head? ≠ some '['

instance (e : Enclosure) (body : Text) : Decidable (e.Holds body) :=
  match e with
  | .quoted => inferInstanceAs (Decidable ('\x27' ∉ body ∧ '\\' ∉ body))
  | .block => inferInstanceAs (Decidable ¬['*', '/'] <:+: body)
  | .slashes => inferInstanceAs (Decidable ('\n' ∉ body ∧ ¬['?', '>'] <:+: body))
  | .hash =>
    inferInstanceAs
      (Decidable (('\n' ∉ body ∧ ¬['?', '>'] <:+: body) ∧ body.head? ≠ some '['))

/-- The enclosure may end before this text. -/
def EndsBefore : Enclosure → Text → Prop
  | .quoted, _ | .block, _ => True
  | .slashes, rest | .hash, rest => EndsLine rest

/-- The piece that encloses a text. -/
def around (e : Enclosure) (body : Text) : Piece := ⟨e.kind, e.opener ++ (body ++ e.closer)⟩

/-- An enclosure is a piece between two tags. -/
theorem kind_ne (e : Enclosure) : e.kind ≠ .preamble ∧ e.kind ≠ .token .openTag ∧
    e.kind ≠ .token .closeTag ∧ e.kind ≠ .outside := by
  cases e <;> decide

/-- An enclosure is no closing tag. -/
theorem kind_ne_closeTag (e : Enclosure) : e.kind ≠ .token .closeTag := e.kind_ne.2.2.1

end Enclosure

/-! ### The length of an enclosure -/

/-- A line does not end with an angle sign. -/
theorem head?_ne_of_endsLine {rest : Text} (h : EndsLine rest) : rest.head? ≠ some '>' := by
  rcases h with rfl | ⟨w, rfl⟩ | ⟨w, rfl⟩ <;> simp

/-- A line comment stops where a line ends. -/
theorem lineCommentLength_of_endsLine {rest : Text} (h : EndsLine rest) :
    lineCommentLength rest = 0 := by
  rcases h with rfl | ⟨w, rfl⟩ | ⟨w, rfl⟩
  · rfl
  · exact if_pos (Or.inl rfl)
  · exact if_pos (Or.inr ⟨rfl, rfl⟩)

/-- A line comment goes on through a text that ends no line. -/
theorem lineCommentLength_append {body rest : Text} (hline : '\n' ∉ body)
    (htag : ¬['?', '>'] <:+: body) (hrest : EndsLine rest) :
    lineCommentLength (body ++ rest) = body.length := by
  induction body with
  | nil => exact lineCommentLength_of_endsLine hrest
  | cons c body ih =>
    have hc : ¬(c = '\n' ∨ c = '?' ∧ (body ++ rest).head? = some '>') := by
      rintro (rfl | ⟨rfl, hgt⟩)
      · exact hline List.mem_cons_self
      · cases body with
        | nil => exact head?_ne_of_endsLine hrest hgt
        | cons d body =>
          obtain rfl : d = '>' := Option.some.inj hgt
          exact htag ⟨[], body, rfl⟩
    rw [List.cons_append, lineCommentLength, if_neg hc, List.length_cons,
      ih (fun hn => hline (List.mem_cons_of_mem _ hn))
        (fun hi => htag (hi.trans (List.suffix_cons c body).isInfix))]

/-- A block comment goes on through a text without its end. -/
theorem blockCommentLength_of_not_infix {body : Text} (h : ¬['*', '/'] <:+: body) (rest : Text) :
    blockCommentLength (body ++ ('*' :: '/' :: rest)) = some (body.length + 2) := by
  induction body with
  | nil => rfl
  | cons c body ih =>
    have hc : ¬(c = '*' ∧ (body ++ ('*' :: '/' :: rest)).head? = some '/') := by
      rintro ⟨rfl, hslash⟩
      cases body with
      | nil => cases hslash
      | cons d body =>
        obtain rfl : d = '/' := Option.some.inj hslash
        exact h ⟨[], body, rfl⟩
    rw [List.cons_append, blockCommentLength, if_neg hc,
      ih fun hi => h (hi.trans (List.suffix_cons c body).isInfix)]
    rfl

/-- A string goes on through a text without its quote and without backslashes. -/
theorem quotedLength_of_not_mem {quote : Char} {body : Text} (hquote : quote ∉ body)
    (hguard : '\\' ∉ body) (rest : Text) (hq : quote ≠ '\\') :
    quotedLength quote (body ++ quote :: rest) = some (body.length + 1) := by
  induction body with
  | nil => cases rest <;> simp [quotedLength, hq]
  | cons c body ih =>
    rw [List.mem_cons, not_or] at hquote hguard
    obtain ⟨d, w, hd⟩ : ∃ d w, body ++ quote :: rest = d :: w :=
      List.exists_cons_of_ne_nil (by simp)
    rw [List.cons_append, hd, quotedLength, if_neg (Ne.symm hguard.1), if_neg (Ne.symm hquote.1),
      ← hd, ih hquote.2 hguard.2]
    rfl

namespace Enclosure

variable {e : Enclosure} {body rest : Text}

/-- **An enclosed text is one piece**, before every text that the enclosure may end before. -/
theorem cut_around (hbody : e.Holds body) (hrest : e.EndsBefore rest) :
    Cut rest (e.around body).text [e.around body] := by
  cases e with
  | quoted =>
    have hlen : quotedLength '\x27' ((body ++ ['\x27']) ++ rest) =
        some (body ++ ['\x27']).length := by
      rw [List.append_assoc, List.length_append]
      exact quotedLength_of_not_mem hbody.1 hbody.2 rest (by decide)
    exact .single (PieceShape.pieceAt_eq (.quoted rfl hlen)) (kind_ne_closeTag _)
  | block =>
    have hlen : blockCommentLength ((body ++ ['*', '/']) ++ rest) =
        some (body ++ ['*', '/']).length := by
      rw [List.append_assoc, List.length_append]
      exact blockCommentLength_of_not_infix hbody rest
    have hcomment : commentLength '/' (('*' :: (body ++ ['*', '/'])) ++ rest) =
        some ('*' :: (body ++ ['*', '/'])).length := by
      rw [commentLength, if_pos ⟨rfl, rfl⟩, List.cons_append, List.tail_cons, hlen]
      rfl
    exact .single (PieceShape.pieceAt_eq (.comment rfl hcomment)) (kind_ne_closeTag _)
  | slashes =>
    have hcomment : commentLength '/' (('/' :: (body ++ [])) ++ rest) =
        some ('/' :: (body ++ [])).length := by
      rw [List.append_nil, commentLength, if_neg (by simp), List.cons_append, lineCommentLength,
        if_neg (by simp), lineCommentLength_append hbody.1 hbody.2 hrest]
      rfl
    exact .single (PieceShape.pieceAt_eq (.comment rfl hcomment)) (kind_ne_closeTag _)
  | hash =>
    have hcomment : commentLength '#' ((body ++ []) ++ rest) = some (body ++ []).length := by
      rw [List.append_nil, commentLength, if_neg (by simp),
        lineCommentLength_append hbody.1.1 hbody.1.2 hrest]
    have hstarts : startsComment '#' ((body ++ []) ++ rest) = true := by
      have hhead : (body ++ rest).head? ≠ some '[' := by
        cases body with
        | nil =>
          have hends : EndsLine rest := hrest
          rcases hends with rfl | ⟨w, rfl⟩ | ⟨w, rfl⟩ <;> simp
        | cons d body => exact hbody.2
      rw [List.append_nil]
      simpa [startsComment] using hhead
    exact .single (PieceShape.pieceAt_eq (.comment hstarts hcomment)) (kind_ne_closeTag _)

/-- A line comment that goes on through a text only ends before the end of a line. -/
theorem endsLine_of_lineCommentLength (h : lineCommentLength (body ++ rest) = body.length) :
    EndsLine rest := by
  obtain ⟨body', rest', heq, hlen, -, hends⟩ := lineCommentLength_spec (body ++ rest)
  obtain ⟨-, rfl⟩ := List.append_inj heq (h.symm.trans hlen)
  exact hends

/-- Where a piece encloses a text, its enclosure ends. -/
theorem endsBefore_of_pieceAt {c : Char} {more : Text} (htext : (e.around body).text = c :: more)
    (h : pieceAt c (more ++ rest) = .ok (e.kind, more.length)) : e.EndsBefore rest := by
  cases e with
  | quoted | block => trivial
  | slashes =>
    obtain ⟨rfl, rfl⟩ := List.cons.inj htext
    have hlen : some (lineCommentLength ('/' :: (body ++ []) ++ rest)) =
        some ('/' :: (body ++ [])).length := by
      cases pieceShape_of_pieceAt h with
      | comment starts length => rwa [commentLength, if_neg (by simp)] at length
    rw [List.append_nil, List.cons_append, lineCommentLength, if_neg (by simp),
      Option.some.injEq] at hlen
    exact endsLine_of_lineCommentLength (Nat.succ.inj hlen)
  | hash =>
    obtain ⟨rfl, rfl⟩ := List.cons.inj htext
    have hlen : some (lineCommentLength ((body ++ []) ++ rest)) = some (body ++ []).length := by
      cases pieceShape_of_pieceAt h with
      | comment starts length => rwa [commentLength, if_neg (by simp)] at length
    rw [List.append_nil, Option.some.injEq] at hlen
    exact endsLine_of_lineCommentLength hlen

end Enclosure

/-! ### What stands before an enclosure -/

/-- A text that ends with three angle signs, apart from spaces and tabs behind them. -/
def AfterAngles (text : Text) : Prop := ['<', '<', '<'] <:+ Text.dropEndWhile Text.isIndent text

instance (text : Text) : Decidable (AfterAngles text) := by
  unfold AfterAngles
  infer_instance

/-- A text that ends with angle signs does so behind every text. -/
theorem AfterAngles.append {text : Text} (h : AfterAngles text) (before : Text) :
    AfterAngles (before ++ text) := by
  have hne : text.reverse.dropWhile Text.isIndent ≠ [] := by
    intro hnil
    have hlen := h.length_le
    rw [Text.dropEndWhile, hnil] at hlen
    exact absurd hlen (by decide)
  have hdrop : Text.dropEndWhile Text.isIndent (before ++ text) =
      before ++ Text.dropEndWhile Text.isIndent text := by
    rw [Text.dropEndWhile, List.reverse_append, (dropWhile_append_of_ne_nil hne _).1,
      List.reverse_append, List.reverse_reverse]
    rfl
  rw [AfterAngles, hdrop]
  exact List.suffix_append_of_suffix h

/-- Three angle signs with blanks behind them end with angle signs. -/
theorem afterAngles_of_forall {blanks : Text} (h : ∀ c ∈ blanks, Text.isIndent c = true) :
    AfterAngles ('<' :: '<' :: '<' :: blanks) := by
  have hdrop : Text.dropEndWhile Text.isIndent ('<' :: '<' :: '<' :: blanks) = ['<', '<', '<'] := by
    have hblanks : ∀ c ∈ blanks.reverse, Text.isIndent c = true :=
      fun c hc => h c (List.mem_reverse.1 hc)
    have hreverse : ('<' :: '<' :: '<' :: blanks).reverse = blanks.reverse ++ ['<', '<', '<'] := by
      simp
    rw [Text.dropEndWhile, hreverse, List.dropWhile_append_of_pos hblanks]
    rfl
  exact ⟨[], hdrop.symm⟩

section
variable {c d : Char} {x v v' : Text} {kind : PieceKind} {n : Nat}

/-- The characters that an enclosure starts with. -/
def OpensEnclosure (d : Char) : Prop := d = '\x27' ∨ d = '/' ∨ d = '#'

/-- An enclosure starts with no word character. -/
theorem not_isWordChar_of_opensEnclosure (hd : OpensEnclosure d) (w : Text) :
    ¬(d :: w).head?.any isWordChar := by
  rcases hd with rfl | rfl | rfl <;> exact Bool.false_ne_true

/-- A line does not end where an enclosure starts. -/
theorem lineCommentLength_pos (hd : OpensEnclosure d) (w : Text) :
    0 < lineCommentLength (d :: w) := by
  rw [lineCommentLength, if_neg]
  · exact Nat.succ_pos _
  · rcases hd with rfl | rfl | rfl <;> simp

/-- A heredoc that starts with another text inside the enclosure has its label there. -/
theorem opensHeredoc_reread (hd : OpensEnclosure d) (h : opensHeredoc c (x ++ d :: v')) :
    opensHeredoc c (x ++ d :: v) ∨
      d = '\x27' ∧ v'.head?.any isNameStart = true ∧ AfterAngles (c :: x) := by
  obtain ⟨rfl, htake, hlabel⟩ := h
  have hangle : d ≠ '<' := by rcases hd with rfl | rfl | rfl <;> decide
  have hindent : ¬Text.isIndent d = true := by rcases hd with rfl | rfl | rfl <;> decide
  match x with
  | [] => exact absurd (List.cons.inj htake).1 hangle
  | [e] => exact absurd (List.cons.inj (List.cons.inj htake).2).1 hangle
  | e :: f :: x =>
    obtain ⟨rfl, hf⟩ := List.cons.inj htake
    obtain ⟨rfl, -⟩ := List.cons.inj hf
    simp only [List.cons_append, List.drop_succ_cons, List.drop_zero, labelStart,
      List.dropWhile_append] at hlabel
    cases hx : x.dropWhile Text.isIndent with
    | nil =>
      -- nothing but blanks stands between the angle signs and the enclosure
      right
      rw [hx] at hlabel
      simp only [List.isEmpty_nil, if_true, List.dropWhile_cons_of_neg hindent] at hlabel
      have hblanks : ∀ c ∈ x, Text.isIndent c = true := List.dropWhile_eq_nil_iff.1 hx
      rcases hd with rfl | rfl | rfl
      · exact ⟨rfl, hlabel, afterAngles_of_forall hblanks⟩
      · exact absurd hlabel Bool.false_ne_true
      · exact absurd hlabel Bool.false_ne_true
    | cons q o =>
      left
      refine ⟨rfl, rfl, ?_⟩
      simp only [List.cons_append, List.drop_succ_cons, List.drop_zero, labelStart,
        List.dropWhile_append]
      rw [hx] at hlabel ⊢
      simp only [List.isEmpty_cons, Bool.false_eq_true, if_false, labelQuote, List.cons_append,
        List.head?_cons, Option.toList_some] at hlabel ⊢
      cases hq : q == '\x27' || q == '\x22' with
      | true =>
        simp only [List.filter, hq, List.length_singleton, List.drop_succ_cons,
          List.drop_zero] at hlabel ⊢
        cases o <;> exact hlabel
      | false =>
        simp only [List.filter, hq, List.length_nil, List.drop_zero] at hlabel ⊢
        exact hlabel

/-- A comment before an enclosure does not depend on what it encloses. -/
theorem commentLength_reread (hd : OpensEnclosure d)
    (h : commentLength c (x ++ d :: v) = some n) (hn : n ≤ x.length) :
    commentLength c (x ++ d :: v') = some n := by
  have hpos := lineCommentLength_pos hd v
  cases x with
  | nil =>
    obtain rfl : n = 0 := Nat.le_zero.1 hn
    exact absurd h (commentLength_ne_zero hpos)
  | cons e x =>
    have hgt : (d :: v).head? ≠ some '>' := by rcases hd with rfl | rfl | rfl <;> simp
    -- a line comment that reached the enclosure would go on in it
    exact commentLength_append h hn hgt (fun _ => hpos) _

/-- **A piece does not depend on what is enclosed behind it**, unless that is the label of a
heredoc. -/
theorem PieceShape.reread (hd : OpensEnclosure d) (h : PieceShape c (x ++ d :: v) kind n)
    (hn : n ≤ x.length) (hlabel : opensHeredoc c (x ++ d :: v') → opensHeredoc c (x ++ d :: v)) :
    PieceShape c (x ++ d :: v') kind n := by
  have hhead : (x ++ d :: v').head? = (x ++ d :: v).head? := by cases x <;> rfl
  have hcomment : startsComment c (x ++ d :: v') = startsComment c (x ++ d :: v) := by
    simp only [startsComment, hhead]
  have hpair : pair? c (x ++ d :: v') = pair? c (x ++ d :: v) := by simp only [pair?, hhead]
  have hword := not_isWordChar_of_opensEnclosure hd v'
  cases h with
  | blank gap => exact .blank gap
  | comment starts length =>
    exact .comment (hcomment.trans starts) (commentLength_reread hd length hn)
  | quoted quote length => exact .quoted_append quote length hn _
  | heredoc angle opened first length => exact .heredoc_append angle opened first length hn hword
  | pair pair => exact .pair (hpair.trans pair)
  | punctuation single => exact .punctuation single
  | variableName dollar name =>
    rw [← length_takeWhile_append rfl hn hword]
    exact .variableName dollar (hhead ▸ name)
  | word char =>
    rw [← length_takeWhile_append rfl hn hword]
    exact .word char
  | symbol gap comment quote heredoc pair single dollar char =>
    exact .symbol gap (hcomment.trans comment) quote (fun ho => heredoc (hlabel ho))
      (hpair.trans pair) single (hhead ▸ dollar) char

/-- **A cut does not depend on what is enclosed behind it**, unless that is the label of a
heredoc. -/
theorem Cut.reread {u : Text} {ps : List Piece} (hd : OpensEnclosure d) (h : Cut (d :: v) u ps)
    (hlabel : d = '\x27' → v'.head?.any isNameStart = true → ¬AfterAngles u) :
    Cut (d :: v') u ps := by
  induction h with
  | nil => exact .nil
  | @cons c more u kind ps step inside later ih =>
    refine .cons ?_ inside (ih fun hq hn ha => hlabel hq hn (ha.append (c :: more)))
    rw [← List.append_assoc] at step ⊢
    refine ((pieceShape_of_pieceAt step).reread hd (by simp) fun ho => ?_).pieceAt_eq
    exact (opensHeredoc_reread hd ho).resolve_right fun ⟨hq, hn, ha⟩ => hlabel hq hn ha

end

/-! ### Another text inside -/

/-- A source text whose first token is an opening tag starts with one. -/
theorem isSome_openTag? {source : Text} {tokens : List Token} (h : tokenize source = .ok tokens)
    (hfirst : tokens.head?.map Token.kind = some .openTag) : (openTag? source).isSome := by
  by_contra hnone
  obtain ⟨ps, hscan, rfl⟩ := map_eq_ok_iff.1 h
  rw [scan, Option.not_isSome_iff_eq_none.1 hnone] at hscan
  obtain ⟨t, ht, hkind⟩ := Option.map_eq_some_iff.1 hfirst
  have hspaced : Spaced source 0 (Token.ofPieces 0 ps) :=
    spaced_of_pieces (List.nil_append source).symm hscan
  exact hspaced.kind_ne_openTag t (List.mem_of_mem_head? ht) hkind

/-- Behind an opening tag stands white space or nothing. -/
theorem head?_of_openTag? {source before tag rest : Text}
    (h : openTag? source = some (before, tag, rest)) : rest.head?.all isAsciiBlank = true := by
  simp only [openTag?, Option.ite_none_right_eq_some, Option.some.injEq, Prod.mk.injEq,
    Bool.and_eq_true] at h
  obtain ⟨⟨-, hrest⟩, -, -, rfl⟩ := h
  exact hrest

/-- The first of some pieces, and the others, which are those of the text behind it. -/
theorem pieces_cons {offset : Nat} {text : Text} {p : Piece} {ps : List Piece}
    (h : pieces offset text = .ok (p :: ps)) (hp : p.kind ≠ .token .closeTag) :
    ∃ c more, p.text = c :: more ∧ pieceAt c (more ++ textOf ps) = .ok (p.kind, more.length) ∧
      ∀ offset, pieces offset (textOf ps) = .ok ps := by
  obtain ⟨c, rest, n, rfl, hstep, htext⟩ := pieceAt_of_pieces h
  have hn : (rest.take n).length = n := List.length_take_of_le (pieceAt_length_le hstep)
  rw [pieces, hstep] at h
  simp only [if_neg hp] at h
  obtain ⟨later, hlater, he⟩ := map_eq_ok_iff.1 h
  obtain rfl : later = ps := (List.cons.inj he).2
  have hrest : textOf later = rest.drop n := flatten_pieces hlater
  refine ⟨c, rest.take n, htext, ?_, ?_⟩
  · rw [hrest, List.take_append_drop, hn]
    exact hstep
  · rw [hrest]
    exact pieces_offset hlater

namespace Enclosure

variable {e : Enclosure} {body body' : Text} {ps qs : List Piece}

/-- An enclosure is opened by one of its characters; an apostrophe opens a quoted one alone. -/
theorem exists_opener (e : Enclosure) : ∃ d more, e.opener = d :: more ∧ OpensEnclosure d ∧
    (d = '\x27' → e = .quoted ∧ more = []) := by
  cases e with
  | quoted => exact ⟨_, _, rfl, Or.inl rfl, fun _ => ⟨rfl, rfl⟩⟩
  | block | slashes => exact ⟨_, _, rfl, Or.inr (Or.inl rfl), nofun⟩
  | hash => exact ⟨_, _, rfl, Or.inr (Or.inr rfl), nofun⟩

/-- What may stand inside an enclosure behind the text `before`: what it holds, but no name that
would be the label of a heredoc. -/
def Admits (e : Enclosure) (before body : Text) : Prop :=
  e.Holds body ∧ (e = .quoted → body.head?.any isNameStart = true → ¬AfterAngles before)

instance (e : Enclosure) (before body : Text) : Decidable (e.Admits before body) := by
  unfold Admits
  infer_instance

/-- With another text inside, the enclosure is one piece and what follows is cut as before. -/
theorem pieces_reread {v : Text} {offset : Nat} (h : pieces offset v = .ok (e.around body :: qs))
    (hbody : e.Holds body') (offset' : Nat) :
    pieces offset' ((e.around body').text ++ textOf qs) = .ok (e.around body' :: qs) := by
  obtain ⟨c, more, htext, hstep, hqs⟩ := pieces_cons h e.kind_ne_closeTag
  rw [(cut_around hbody (endsBefore_of_pieceAt htext hstep)).pieces_append, hqs]
  rfl

/-- With another text inside, what stands before the enclosure is cut as before. -/
theorem cut_reread {u w : Text} (h : Cut ((e.around body).text ++ w) u ps)
    (hbody : e.Admits u body') : Cut ((e.around body').text ++ w) u ps := by
  obtain ⟨d, opener, hopener, hd, hquote⟩ := e.exists_opener
  have htext : ∀ inner, (e.around inner).text ++ w =
      d :: (opener ++ (inner ++ (e.closer ++ w))) := by
    intro inner
    rw [around, hopener]
    simp
  rw [htext] at h ⊢
  refine Cut.reread hd h fun hd hname => ?_
  obtain ⟨rfl, rfl⟩ := hquote hd
  cases body' with
  | nil => exact absurd hname Bool.false_ne_true
  | cons c body' => exact hbody.2 rfl hname

/-- The pieces of a source text before an enclosure: what stands before the program, and a cut. -/
theorem cut_of_scan {source before tag rest : Text}
    (h : scan source = .ok (ps ++ e.around body :: qs))
    (htag : openTag? source = some (before, tag, rest)) :
    ∃ ps' u, ps = ⟨.preamble, before⟩ :: ⟨.token .openTag, tag⟩ :: ps' ∧
      rest = u ++ ((e.around body).text ++ textOf qs) ∧
      Cut ((e.around body).text ++ textOf qs) u ps' ∧
      ∃ offset, pieces offset ((e.around body).text ++ textOf qs) = .ok (e.around body :: qs) := by
  rw [scan, htag] at h
  obtain ⟨later, hlater, hps⟩ := map_eq_ok_iff.1 h
  obtain ⟨hpreamble, hopenTag, -, houtside⟩ := e.kind_ne
  obtain ⟨ps', rfl, rfl⟩ : ∃ ps', ps = ⟨.preamble, before⟩ :: ⟨.token .openTag, tag⟩ :: ps' ∧
      later = ps' ++ e.around body :: qs := by
    rcases ps with _ | ⟨p, _ | ⟨p', ps⟩⟩
    · exact absurd (congrArg Piece.kind (List.cons.inj hps).1).symm hpreamble
    · exact absurd (congrArg Piece.kind (List.cons.inj (List.cons.inj hps).2).1).symm hopenTag
    · obtain ⟨rfl, hlater⟩ := List.cons.inj hps
      obtain ⟨rfl, rfl⟩ := List.cons.inj hlater
      exact ⟨ps, rfl, rfl⟩
  obtain ⟨u, v, rfl, hcut, hv⟩ := cut_of_pieces hlater houtside
  obtain rfl : (e.around body).text ++ textOf qs = v := flatten_pieces hv
  exact ⟨ps', u, rfl, rfl, hcut, _, hv⟩

/-- **Another text inside an enclosure does not change the pieces around it.** -/
theorem scan_around {source : Text} (h : scan source = .ok (ps ++ e.around body :: qs))
    (hopen : (openTag? source).isSome) (hbody : e.Admits (textOf ps) body') :
    scan (textOf ps ++ ((e.around body').text ++ textOf qs)) =
      .ok (ps ++ e.around body' :: qs) := by
  obtain ⟨⟨before, tag, rest⟩, htag⟩ := Option.isSome_iff_exists.1 hopen
  obtain ⟨ps, u, rfl, rfl, hcut, offset, hv⟩ := cut_of_scan h htag
  have hu : u ≠ [] := by
    rintro rfl
    obtain ⟨d, opener, hopener, hd, -⟩ := e.exists_opener
    have hblank := head?_of_openTag? htag
    rw [List.nil_append, around, hopener] at hblank
    rcases hd with rfl | rfl | rfl <;> exact absurd hblank Bool.false_ne_true
  have htext : textOf ps = u := hcut.textOf_eq
  have hadmits : e.Admits u body' := by
    refine ⟨hbody.1, fun he hname hangles => hbody.2 he hname ?_⟩
    rw [textOf_cons, textOf_cons, htext, ← List.append_assoc]
    exact hangles.append _
  have hcut' := cut_reread hcut hadmits
  rw [textOf_cons, textOf_cons, htext, List.append_assoc, List.append_assoc, scan,
    openTag?_split htag rfl hu]
  simp only
  rw [hcut'.pieces_append, pieces_reread hv hbody.1]
  rfl

/-- A comment encloses a text. -/
theorem exists_around_comment {c : Char} {rest : Text} {n : Nat}
    (starts : startsComment c rest = true) (length : commentLength c rest = some n) :
    ∃ (e : Enclosure) (body : Text), (⟨.comment, c :: rest.take n⟩ : Piece) = e.around body := by
  unfold startsComment at starts
  unfold commentLength at length
  split at length
  · rename_i hblock
    obtain ⟨rfl, hhead⟩ := hblock
    obtain ⟨text, rfl⟩ := List.head?_eq_some_iff.1 hhead
    obtain ⟨m, hm, rfl⟩ := Option.map_eq_some_iff.1 length
    obtain ⟨body, later, htext, rfl, -⟩ := blockCommentLength_spec hm
    refine ⟨.block, body, ?_⟩
    rw [List.tail_cons] at htext
    rw [htext, List.take_succ_cons, List.take_length_add_append]
    rfl
  · rename_i hline
    obtain rfl := Option.some.inj length
    by_cases hslash : c = '/'
    · subst hslash
      have hstar : rest.head? ≠ some '*' := fun hstar => hline ⟨rfl, hstar⟩
      have hhead : rest.head? = some '/' := by simpa [hstar] using starts
      obtain ⟨text, rfl⟩ := List.head?_eq_some_iff.1 hhead
      refine ⟨.slashes, text.take (lineCommentLength text), ?_⟩
      rw [lineCommentLength, if_neg (by simp), List.take_succ_cons, around, closer, List.append_nil]
      rfl
    · rw [if_neg hslash, Bool.and_eq_true, decide_eq_true_eq] at starts
      refine ⟨.hash, rest.take (lineCommentLength rest), ?_⟩
      rw [starts.1, around, closer, List.append_nil]
      rfl

/-- A comment, or a string that starts with an apostrophe. -/
def IsEnclosed (p : Piece) : Prop :=
  p.kind = .comment ∨ p.kind = .token .string ∧ p.text.head? = some '\x27'

/-- A piece that is enclosed encloses a text. -/
theorem exists_around_of_pieces {offset : Nat} {text : Text} {found : List Piece} {p : Piece}
    (h : pieces offset text = .ok found) (hp : p ∈ found) (hkind : IsEnclosed p) :
    ∃ (e : Enclosure) (body : Text), p = e.around body := by
  obtain ⟨ps, qs, rfl⟩ := List.append_of_mem hp
  have hinside : p.kind ≠ .outside := by
    rcases hkind with hk | ⟨hk, -⟩ <;> rw [hk] <;> nofun
  obtain ⟨u, v, -, -, hv⟩ := cut_of_pieces h hinside
  obtain ⟨c, rest, n, -, hstep, htext⟩ := pieceAt_of_pieces hv
  obtain ⟨kind, text⟩ := p
  obtain rfl : text = c :: rest.take n := htext
  cases pieceShape_of_pieceAt hstep with
  | comment starts length => exact exists_around_comment starts length
  | quoted quote length =>
    obtain rfl : c = '\x27' := Option.some.inj (hkind.resolve_left nofun).2
    obtain ⟨inner, tail, rfl, rfl⟩ := quotedLength_spec length
    refine ⟨.quoted, inner, ?_⟩
    rw [List.take_length_add_append]
    rfl
  | heredoc angle =>
    obtain rfl : c = '\x27' := Option.some.inj (hkind.resolve_left nofun).2
    cases angle
  | pair found | punctuation found =>
    obtain rfl : c = '\x27' := Option.some.inj (hkind.resolve_left nofun).2
    cases found
  | blank | variableName | word | symbol => exact absurd hkind (by simp [IsEnclosed])

/-- **Every comment of a source text encloses a text**, and so does every string that starts with
an apostrophe. -/
theorem exists_around {source : Text} {found : List Piece} {p : Piece}
    (h : scan source = .ok found) (hp : p ∈ found) (hkind : IsEnclosed p) :
    ∃ (e : Enclosure) (body : Text), p = e.around body := by
  unfold scan at h
  split at h
  · exact exists_around_of_pieces h hp hkind
  · obtain ⟨later, hlater, rfl⟩ := map_eq_ok_iff.1 h
    rcases List.mem_cons.1 hp with rfl | hp
    · exact absurd hkind (by simp [IsEnclosed])
    rcases List.mem_cons.1 hp with rfl | hp
    · exact absurd hkind (by simp [IsEnclosed])
    exact exists_around_of_pieces hlater hp hkind

end Enclosure

end Script
end Scaffold

/-
# The scanner loses nothing

The tokens of a source text stand in it one after another, none of them empty, and all that is
between them is white space and whole comments (`tokenize_lossless`). An opening tag is the first
token, where there is one, and may have a byte order mark, the line of an interpreter and Unicode
white space before it. A closing tag is the last token, and anything may follow it.

Positions count characters here. In the bytes of the source text each of them is a boundary between
two characters, and a scan of the bytes finds the tokens at these boundaries (`InBytes`). What is
only about the order of the tokens is stated apart (`inOrder_of_tokenize`).
-/

import Mathlib.Data.List.Chain
import Scaffold.Proofs.Scan.Bytes
import Scaffold.Proofs.Scan.Trivia

namespace Scaffold
namespace Script

/-! ### Slices -/

/-- A slice and what follows it are what follows its start. -/
theorem slice_append_drop (source : Text) {start stop : Nat} (h : start ≤ stop) :
    source.slice start stop ++ source.drop stop = source.drop start := by
  have hstop : source.drop stop = (source.drop start).drop (stop - start) := by
    rw [List.drop_drop, Nat.add_sub_cancel' h]
  rw [Text.slice, hstop, List.take_append_drop]

/-- A slice from a place to itself is empty. -/
theorem slice_self (source : Text) (place : Nat) : source.slice place place = [] := by
  rw [Text.slice, Nat.sub_self, List.take_zero]

/-- The slice of the second of three texts is that text. -/
theorem slice_of_append (x text rest : Text) :
    (x ++ (text ++ rest)).slice x.length (x.length + text.length) = text := by
  rw [Text.slice, List.drop_left, Nat.add_sub_cancel_left, List.take_left]

/-- A slice that starts with a part goes on behind it. -/
theorem append_slice {source x text rest : Text} (h : source = x ++ (text ++ rest)) {stop : Nat}
    (hstop : (x ++ text).length ≤ stop) :
    source.slice x.length stop = text ++ source.slice (x ++ text).length stop := by
  have hlength : stop - x.length = text.length + (stop - (x ++ text).length) := by
    rw [List.length_append] at hstop ⊢
    omega
  have hdrop : source.drop (x ++ text).length = rest := by
    rw [h, ← List.append_assoc, List.drop_left]
  rw [Text.slice, Text.slice, hdrop, hlength, h, List.drop_left, List.take_length_add_append]

/-! ### Tokens with trivia between them -/

/-- The token is a part of the source and not empty. -/
structure Placed (source : Text) (t : Token) : Prop where
  ne_nil : t.text ≠ []
  stop_le : t.stop ≤ source.length
  slice_eq : source.slice t.start t.stop = t.text

/-- From a position on, the source holds the given tokens, trivia before each of them, and trivia
to its end if it is not closed. -/
inductive Spaced (source : Text) : Nat → List Token → Prop
  | done {offset : Nat} (rest : Trivia [] (source.drop offset)) : Spaced source offset []
  | closed {offset : Nat} {t : Token} (le : offset ≤ t.start)
      (gap : Trivia (source.drop t.start) (source.slice offset t.start)) (placed : Placed source t)
      (kind : t.kind = .closeTag) : Spaced source offset [t]
  | token {offset : Nat} {t : Token} {ts : List Token} (le : offset ≤ t.start)
      (gap : Trivia (source.drop t.start) (source.slice offset t.start)) (placed : Placed source t)
      (inside : t.kind ≠ .openTag ∧ t.kind ≠ .closeTag) (later : Spaced source t.stop ts) :
      Spaced source offset (t :: ts)

/-- No piece of the program is an opening tag. -/
theorem kind_ne_openTag {c : Char} {rest : Text} {kind : TokenKind} {n : Nat}
    (h : pieceAt c rest = .ok (.token kind, n)) : kind ≠ .openTag := by
  rintro rfl
  have hshape := pieceShape_of_pieceAt h
  generalize hk : PieceKind.token .openTag = pieceKind at hshape
  cases hshape with
  | pair found =>
    cases hk
    unfold pair? at found
    split at found <;> cases found
  | punctuation found =>
    cases hk
    unfold punctuation? at found
    split at found <;> cases found
  | _ => cases hk

section
variable {source x rest : Text} {c : Char} {n : Nat}

/-- A piece of the program is a part of the source. -/
theorem placed_piece (hs : source = x ++ c :: rest) (hn : n ≤ rest.length) (kind : TokenKind) :
    Placed source ⟨kind, x.length, c :: rest.take n⟩ where
  ne_nil := List.cons_ne_nil _ _
  stop_le := by
    rw [hs]
    simp only [Token.stop, List.length_append, List.length_cons, List.length_take]
    omega
  slice_eq := by
    rw [split_piece hs n]
    exact slice_of_append x _ _

/-- Trivia may stand before the first token. -/
theorem Spaced.cons_trivia {kind : PieceKind} (hs : source = x ++ c :: rest)
    (hstep : pieceAt c rest = .ok (kind, n)) (hk : ∀ k, kind ≠ .token k) {tokens : List Token}
    (h : Spaced source (x ++ (c :: rest.take n)).length tokens) :
    Spaced source x.length tokens := by
  have hsplit := split_piece hs n
  have hdrop : source.drop (x ++ (c :: rest.take n)).length = rest.drop n := by
    rw [hsplit, ← List.append_assoc, List.drop_left]
  have hle : x.length ≤ (x ++ (c :: rest.take n)).length := by
    rw [List.length_append]
    omega
  -- what stands before a later token stands after the piece
  have hgap : ∀ {t : Token}, (x ++ (c :: rest.take n)).length ≤ t.start →
      Trivia (source.drop t.start) (source.slice (x ++ (c :: rest.take n)).length t.start) →
      Trivia (source.drop t.start) (source.slice x.length t.start) := by
    intro t hle gap
    have hrest : rest.drop n = source.slice (x ++ (c :: rest.take n)).length t.start ++
        source.drop t.start := by
      rw [slice_append_drop source hle, hdrop]
    rw [append_slice hsplit hle]
    exact Trivia.of_piece hstep hk hrest gap
  cases h with
  | done gap =>
    refine .done ?_
    rw [hdrop] at gap
    rw [hs, List.drop_left]
    have hall := Trivia.of_piece hstep hk (List.append_nil _).symm gap
    rwa [List.take_append_drop] at hall
  | closed le gap placed kind => exact .closed (hle.trans le) (hgap le gap) placed kind
  | token le gap placed inside later =>
    exact .token (hle.trans le) (hgap le gap) placed inside later

end

/-- **The tokens of a program stand in it with trivia between them.** -/
theorem spaced_of_pieces {source x text : Text} (hs : source = x ++ text) {ps : List Piece}
    (h : pieces x.length text = .ok ps) :
    Spaced source x.length (Token.ofPieces x.length ps) := by
  generalize hoffset : x.length = offset at h
  fun_induction pieces offset text generalizing x ps with
  | case1 =>
    cases h
    refine .done ?_
    rw [← hoffset, hs, List.drop_left]
    exact .nil
  | case2 => cases h
  | case3 offset c rest n hstep =>
    cases h
    subst hoffset
    have hplaced := placed_piece hs (pieceAt_length_le hstep) .closeTag
    refine .closed (Nat.le_refl _) ?_ hplaced rfl
    rw [slice_self]
    exact .nil
  | case4 offset c rest kind n hstep piece hk =>
    rename_i ih
    obtain ⟨later, hlater, rfl⟩ := map_eq_ok_iff.1 h
    subst hoffset
    have hsplit : source = (x ++ piece.text) ++ rest.drop n := by
      rw [split_piece hs n, List.append_assoc]
    have hspaced := ih hsplit (List.length_append ..) hlater
    rw [Token.ofPieces]
    cases kind with
    | token kind =>
      have hplaced := placed_piece hs (pieceAt_length_le hstep) kind
      refine .token (Nat.le_refl _) ?_ hplaced ⟨kind_ne_openTag hstep, ?_⟩ hspaced
      · rw [slice_self]
        exact .nil
      · rintro rfl
        exact hk rfl
    | _ =>
      refine Spaced.cons_trivia hs hstep (fun k hkind => ?_) ?_
      · cases hkind
      · rwa [List.length_append]

/-! ### Consequences, field by field -/

namespace Spaced

variable {source : Text} {offset : Nat} {tokens : List Token}

/-- The tokens stand behind the place. -/
theorem le_start (h : Spaced source offset tokens) : ∀ t ∈ tokens, offset ≤ t.start := by
  induction h with
  | done => nofun
  | closed le => simpa using le
  | @token offset t ts le gap placed inside later ih =>
    intro u hu
    rcases List.mem_cons.1 hu with rfl | hu
    · exact le
    · have hstop := ih u hu
      unfold Token.stop at hstop
      omega

/-- The tokens are parts of the source. -/
theorem placed (h : Spaced source offset tokens) : ∀ t ∈ tokens, Placed source t := by
  induction h with
  | done => nofun
  | closed le gap placed => simpa using placed
  | token le gap placed inside later ih => exact List.forall_mem_cons.2 ⟨placed, ih⟩

/-- An opening tag is not among the tokens. -/
theorem kind_ne_openTag (h : Spaced source offset tokens) : ∀ t ∈ tokens, t.kind ≠ .openTag := by
  induction h with
  | done => nofun
  | @closed offset t le gap placed kind =>
    rw [List.forall_mem_singleton, kind]
    exact nofun
  | token le gap placed inside later ih => exact List.forall_mem_cons.2 ⟨inside.1, ih⟩

/-- The token before the rest of the tokens ends before each of them. -/
theorem before_all {t : Token} (ht : Placed source t) (h : Spaced source t.stop tokens) :
    ∀ u ∈ tokens, t.start < u.start ∧ t.stop ≤ u.start := by
  intro u hu
  have hstop := h.le_start u hu
  have hpos := List.length_pos_iff.2 ht.ne_nil
  unfold Token.stop at hstop ⊢
  omega

/-- The tokens stand one behind the other. -/
theorem ordered (h : Spaced source offset tokens) :
    tokens.Pairwise fun t u => t.start < u.start ∧ t.stop ≤ u.start := by
  induction h with
  | done => exact .nil
  | closed => exact List.pairwise_singleton _ _
  | token le gap placed inside later ih => exact .cons (before_all placed later) ih

/-- A closing tag is the last token. -/
theorem closeTag_last (h : Spaced source offset tokens) :
    ∀ t ∈ tokens.dropLast, t.kind ≠ .closeTag := by
  induction h with
  | done => nofun
  | closed => nofun
  | @token offset t ts le gap placed inside later ih =>
    cases ts with
    | nil => nofun
    | cons u us => exact List.forall_mem_cons.2 ⟨inside.2, ih⟩

/-- Before the first token stands trivia. -/
theorem ahead (h : Spaced source offset tokens) :
    ∀ t ∈ tokens.head?, Trivia (source.drop t.start) (source.slice offset t.start) := by
  rintro t ht
  cases h with
  | done => cases ht
  | closed le gap =>
    obtain rfl := Option.some.inj ht
    exact gap
  | token le gap =>
    obtain rfl := Option.some.inj ht
    exact gap

/-- Between two tokens stands trivia. -/
theorem between (h : Spaced source offset tokens) :
    tokens.IsChain fun t u => Trivia (source.drop u.start) (source.slice t.stop u.start) := by
  induction h with
  | done => exact .nil
  | closed => exact .singleton _
  | token le gap placed inside later ih => exact List.isChain_cons.2 ⟨later.ahead, ih⟩

/-- Without a token, all is trivia. -/
theorem nothing (h : Spaced source offset tokens) (hnil : tokens = []) :
    Trivia [] (source.drop offset) := by
  cases h with
  | done rest => exact rest
  | _ => cases hnil

/-- Behind the last token stands trivia, unless it is a closing tag. -/
theorem behind (h : Spaced source offset tokens) :
    ∀ t ∈ tokens.getLast?, t.kind ≠ .closeTag → Trivia [] (source.drop t.stop) := by
  induction h with
  | done => nofun
  | closed le gap placed kind =>
    intro t ht hne
    obtain rfl := Option.some.inj ht
    exact absurd kind hne
  | @token offset t ts le gap placed inside later ih =>
    intro u hu hne
    cases ts with
    | nil =>
      obtain rfl := Option.some.inj hu
      exact later.nothing rfl
    | cons v vs =>
      rw [List.getLast?_cons_cons] at hu
      exact ih u hu hne

end Spaced

/-! ### The head of a source text -/

/-- What may stand before an opening tag: a byte order mark, a first line that names an
interpreter, and white space in the sense of Unicode. -/
def Preamble (text : Text) : Prop :=
  ∃ mark line blanks, text = mark ++ (line ++ blanks) ∧ (mark = [] ∨ mark = ['\uFEFF']) ∧
    (line = [] ∨ ∃ name, line = ['#', '!'] ++ (name ++ ['\n']) ∧ '\n' ∉ name) ∧
    ∀ c ∈ blanks, isBlank c = true

/-- Before the rest stands a byte order mark or nothing. -/
theorem take_markLength (source : Text) :
    source.take (markLength source) = [] ∨ source.take (markLength source) = ['\uFEFF'] := by
  unfold markLength
  split
  · rename_i h
    obtain ⟨rest, rfl⟩ := List.head?_eq_some_iff.1 h
    exact Or.inr rfl
  · exact Or.inl rfl

/-- A line that starts with `#!` and ends within the text. -/
theorem take_interpreterLine {body : Text} (h : body.take 2 = ['#', '!'])
    (hle : (body.takeWhile (· != '\n')).length + 1 ≤ body.length) :
    ∃ name, body.take ((body.takeWhile (· != '\n')).length + 1) =
      ['#', '!'] ++ (name ++ ['\n']) ∧ '\n' ∉ name := by
  obtain ⟨rest, rfl⟩ : ∃ rest, body = '#' :: '!' :: rest := by
    refine ⟨body.drop 2, ?_⟩
    have hsplit := List.take_append_drop 2 body
    rw [h] at hsplit
    exact hsplit.symm
  have hline : ('#' :: '!' :: rest).takeWhile (· != '\n') =
      '#' :: '!' :: rest.takeWhile (· != '\n') := rfl
  rw [hline] at hle ⊢
  have hsplit := List.takeWhile_append_dropWhile (p := (· != '\n')) (l := rest)
  have hlength := congrArg List.length hsplit
  rw [List.length_append] at hlength
  simp only [List.length_cons] at hle
  obtain ⟨c, later, hlater⟩ : ∃ c later, rest.dropWhile (· != '\n') = c :: later := by
    refine List.exists_cons_of_length_pos ?_
    omega
  have hc : c = '\n' := by
    have hhead := List.head?_dropWhile_not (· != '\n') rest
    rw [hlater] at hhead
    simpa using hhead
  refine ⟨rest.takeWhile (· != '\n'), ?_, fun hmem => ?_⟩
  · have htake : rest.take ((rest.takeWhile (· != '\n')).length + 1) =
        rest.takeWhile (· != '\n') ++ ['\n'] := by
      conv_lhs => arg 2; rw [← hsplit, hlater, hc]
      rw [List.take_length_add_append]
      rfl
    rw [List.length_cons, List.length_cons, List.take_succ_cons, List.take_succ_cons, htake]
    rfl
  · have hne := List.mem_takeWhile_imp hmem
    exact absurd hne (by decide)

/-- **Before an opening tag stands a preamble.** -/
theorem preamble_of_openTag? {source before tag rest : Text}
    (h : openTag? source = some (before, tag, rest)) : Preamble before := by
  obtain ⟨line, blanks, c, more, hbefore, hline, hblanks, -, -, -⟩ := openTag?_spec h
  have hsource := append_of_openTag? h
  have htake : line = source.take (shebangLength source) := by
    rw [← hline, ← hsource, hbefore, List.append_assoc, List.take_left]
  have hle : shebangLength source ≤ source.length := by
    rw [← hline, ← hsource, hbefore]
    simp only [List.length_append]
    omega
  rw [hbefore, htake]
  rw [shebangLength_eq] at hle ⊢
  split
  · rename_i hmark
    rw [if_pos hmark] at hle
    obtain ⟨name, hname, hfree⟩ := take_interpreterLine hmark (by
      rw [List.length_drop]
      omega)
    rw [Nat.add_assoc, List.take_add, hname]
    exact ⟨_, _, blanks, List.append_assoc .., take_markLength source,
      Or.inr ⟨name, rfl, hfree⟩, hblanks⟩
  · exact ⟨_, [], blanks, rfl, take_markLength source, Or.inl rfl, hblanks⟩

/-! ### The tokens of a source text -/

/-- The tokens are parts of the source, none of them empty, each behind the ones before it. -/
structure InOrder (source : Text) (tokens : List Token) : Prop where
  ordered : tokens.Pairwise fun t u => t.stop ≤ u.start
  start_lt : ∀ t ∈ tokens, t.start < t.stop
  stop_le : ∀ t ∈ tokens, t.stop ≤ source.length

/-- A token stops behind its start. -/
theorem Placed.start_lt {source : Text} {t : Token} (h : Placed source t) : t.start < t.stop :=
  Nat.lt_add_of_pos_right (List.length_pos_iff.2 h.ne_nil)

/-- Tokens with trivia between them are in order. -/
theorem Spaced.inOrder {source : Text} {offset : Nat} {tokens : List Token}
    (h : Spaced source offset tokens) : InOrder source tokens where
  ordered := h.ordered.imp And.right
  start_lt t ht := (h.placed t ht).start_lt
  stop_le t ht := (h.placed t ht).stop_le

/-- The tokens of a source text are in order. -/
theorem inOrder_of_tokenize {source : Text} {tokens : List Token}
    (h : tokenize source = .ok tokens) : InOrder source tokens := by
  obtain ⟨ps, hscan, rfl⟩ := map_eq_ok_iff.1 h
  rw [scan] at hscan
  split at hscan
  · exact (spaced_of_pieces (List.nil_append source).symm hscan).inOrder
  · rename_i before tag rest htag
    obtain ⟨later, hlater, rfl⟩ := map_eq_ok_iff.1 hscan
    have hsource := append_of_openTag? htag
    obtain ⟨-, -, c, more, -, -, -, hname, -, -⟩ := openTag?_spec htag
    rw [← List.length_append] at hlater
    have hspaced := spaced_of_pieces (by rw [List.append_assoc, hsource]) hlater
    have hlater := hspaced.inOrder
    rw [Token.ofPieces, Token.ofPieces, Nat.zero_add, ← List.length_append]
    have hstop : Token.stop ⟨.openTag, before.length, tag⟩ = (before ++ tag).length :=
      List.length_append.symm
    refine ⟨.cons (fun t ht => ?_) hlater.ordered,
      List.forall_mem_cons.2 ⟨?_, hlater.start_lt⟩, List.forall_mem_cons.2 ⟨?_, hlater.stop_le⟩⟩
    · rw [hstop]
      exact hspaced.le_start t ht
    · rw [hname]
      exact Nat.lt_add_of_pos_right (Nat.succ_pos _)
    · rw [hstop, ← hsource, ← List.append_assoc]
      exact (List.prefix_append _ rest).length_le

/-- The tokens in the text of the source: they are parts of it, and between them it holds nothing
but trivia. -/
structure InText (source : Text) (tokens : List Token) : Prop where
  placed : ∀ t ∈ tokens, Placed source t
  ordered : tokens.Pairwise fun t u => t.start < u.start ∧ t.stop ≤ u.start
  openTag_first : ∀ t ∈ tokens.tail, t.kind ≠ .openTag
  closeTag_last : ∀ t ∈ tokens.dropLast, t.kind ≠ .closeTag
  /-- Between a token and the next. -/
  between : tokens.IsChain fun t u => Trivia (source.drop u.start) (source.slice t.stop u.start)
  /-- After the last token. -/
  behind : ∀ t ∈ tokens.getLast?, t.kind ≠ .closeTag → Trivia [] (source.drop t.stop)
  /-- Before the first token, where it is a part of the program. -/
  ahead : ∀ t ∈ tokens.head?, t.kind ≠ .openTag →
    Trivia (source.drop t.start) (source.take t.start)
  /-- Before the first token, where it is an opening tag. -/
  preamble : ∀ t ∈ tokens.head?, t.kind = .openTag → Preamble (source.take t.start)
  /-- In a source without tokens. -/
  nothing : tokens = [] → Trivia [] source

/-- The tokens in the bytes of the source, where a scan of the bytes finds them. -/
structure InBytes (source : Text) (tokens : List Token) : Prop where
  scanned : tokenizeBytes? source = some (.ok (tokens.map (Token.inBytes source)))
  /-- Each starts and ends between two characters. -/
  boundaries : ∀ t ∈ tokens.map (Token.inBytes source),
    IsBoundary (utf8Text source) t.start ∧ IsBoundary (utf8Text source) t.stop
  placed : ∀ t ∈ tokens.map (Token.inBytes source), Placed (octets source) t
  ordered : (tokens.map (Token.inBytes source)).Pairwise fun t u =>
    t.start < u.start ∧ t.stop ≤ u.start
  /-- Between two places stands in the bytes what stands there in the text. -/
  slice_eq : ∀ start stop, start ≤ stop →
    (octets source).slice (byteOffset source start) (byteOffset source stop) =
      octets (source.slice start stop)

/-- The tokens are those of the source, by its characters and by its bytes. -/
structure Lossless (source : Text) (tokens : List Token) : Prop where
  inText : InText source tokens
  inBytes : InBytes source tokens

/-- A program without an opening tag. -/
theorem Spaced.inText {source : Text} {tokens : List Token} (h : Spaced source 0 tokens) :
    InText source tokens where
  placed := h.placed
  ordered := h.ordered
  openTag_first t ht := h.kind_ne_openTag t (List.mem_of_mem_tail ht)
  closeTag_last := h.closeTag_last
  between := h.between
  behind := h.behind
  ahead t ht _ := h.ahead t ht
  preamble t ht htag := absurd htag (h.kind_ne_openTag t (List.mem_of_mem_head? ht))
  nothing := h.nothing

/-- A program after an opening tag. -/
theorem Spaced.inText_openTag {source : Text} {t : Token} {ts : List Token}
    (kind : t.kind = .openTag) (placed : Placed source t)
    (preamble : Preamble (source.take t.start)) (h : Spaced source t.stop ts) :
    InText source (t :: ts) where
  placed := List.forall_mem_cons.2 ⟨placed, h.placed⟩
  ordered := .cons (Spaced.before_all placed h) h.ordered
  openTag_first := h.kind_ne_openTag
  closeTag_last := by
    cases ts with
    | nil => nofun
    | cons u us =>
      refine List.forall_mem_cons.2 ⟨?_, h.closeTag_last⟩
      rw [kind]
      nofun
  between := List.isChain_cons.2 ⟨h.ahead, h.between⟩
  behind := by
    cases ts with
    | nil =>
      rintro u hu -
      obtain rfl := Option.some.inj hu
      exact h.nothing rfl
    | cons u us =>
      rw [List.getLast?_cons_cons]
      exact h.behind
  ahead := by
    rintro u hu hne
    obtain rfl := Option.some.inj hu
    exact absurd kind hne
  preamble := by
    rintro u hu -
    obtain rfl := Option.some.inj hu
    exact preamble
  nothing := nofun

/-- The tokens of a source text are parts of it, with trivia between them. -/
theorem inText_of_tokenize {source : Text} {tokens : List Token}
    (h : tokenize source = .ok tokens) : InText source tokens := by
  obtain ⟨ps, hscan, rfl⟩ := map_eq_ok_iff.1 h
  rw [scan] at hscan
  split at hscan
  · -- the whole source is read as program text
    have hspaced : Spaced source 0 (Token.ofPieces 0 ps) :=
      spaced_of_pieces (List.nil_append source).symm hscan
    exact hspaced.inText
  · rename_i before tag rest htag
    obtain ⟨later, hlater, rfl⟩ := map_eq_ok_iff.1 hscan
    have hsource := append_of_openTag? htag
    obtain ⟨-, -, c, more, -, -, -, hname, -, -⟩ := openTag?_spec htag
    have hplaced : Placed source ⟨.openTag, before.length, tag⟩ := by
      refine ⟨?_, ?_, ?_⟩
      · show tag ≠ []
        rw [hname]
        exact List.cons_ne_nil _ _
      · rw [← hsource]
        simp only [Token.stop, List.length_append]
        omega
      · rw [← hsource]
        exact slice_of_append before tag rest
    have hpreamble : Preamble (source.take before.length) := by
      rw [← hsource, List.take_left]
      exact preamble_of_openTag? htag
    rw [← List.length_append] at hlater
    have hspaced := spaced_of_pieces (by rw [List.append_assoc, hsource]) hlater
    have htokens : Token.ofPieces 0 (⟨.preamble, before⟩ :: ⟨.token .openTag, tag⟩ :: later) =
        ⟨.openTag, before.length, tag⟩ :: Token.ofPieces (before ++ tag).length later := by
      rw [Token.ofPieces, Token.ofPieces, Nat.zero_add, List.length_append]
    rw [htokens]
    refine Spaced.inText_openTag rfl hplaced hpreamble ?_
    rwa [Token.stop, ← List.length_append]

/-! ### The same in bytes -/

/-- The bytes between two places are those of the characters between them. -/
theorem slice_octets (source : Text) {start stop : Nat} (h : start ≤ stop) :
    (octets source).slice (byteOffset source start) (byteOffset source stop) =
      octets (source.slice start stop) := by
  have hsplit := slice_append_drop source h
  have hwidth : byteOffset source stop =
      byteOffset source start + (octets (source.slice start stop)).length := by
    rw [← length_octets_take, ← Text.take_append_slice source h, octets_append, List.length_append,
      length_octets_take]
  rw [Text.slice, drop_octets, hwidth, Nat.add_sub_cancel_left, ← hsplit, octets_append,
    List.take_left]

/-- A token ends in the bytes where its last character ends. -/
theorem Placed.stop_inBytes {source : Text} {t : Token} (h : Placed source t) :
    (t.inBytes source).stop = byteOffset source t.stop := by
  have htake := Text.take_append_slice source h.start_lt.le
  rw [h.slice_eq] at htake
  rw [← length_octets_take, ← htake, octets_append, List.length_append, length_octets_take]
  rfl

/-- A token is a part of the bytes. -/
theorem Placed.inBytes {source : Text} {t : Token} (h : Placed source t) :
    Placed (octets source) (t.inBytes source) where
  ne_nil hnil := by
    have hle := length_le_utf8Text t.text
    rw [← length_octets, show octets t.text = [] from hnil] at hle
    exact h.ne_nil (List.length_eq_zero_iff.1 (Nat.le_zero.1 hle))
  stop_le := by
    rw [h.stop_inBytes, ← length_octets_take, ← take_octets]
    exact (List.take_prefix _ _).length_le
  slice_eq := by
    rw [h.stop_inBytes]
    exact (slice_octets source h.start_lt.le).trans (congrArg octets h.slice_eq)

/-- **The tokens of a source text stand at boundaries in its bytes.** -/
theorem InText.inBytes {source : Text} {tokens : List Token} (htext : InText source tokens)
    (h : tokenize source = .ok tokens) : InBytes source tokens where
  scanned := by
    rw [tokenizeBytes?_eq, h]
    rfl
  boundaries := by
    rw [List.forall_mem_map]
    intro t ht
    rw [(htext.placed t ht).stop_inBytes]
    exact ⟨isBoundary_byteOffset source t.start, isBoundary_byteOffset source t.stop⟩
  placed := List.forall_mem_map.2 fun t ht => (htext.placed t ht).inBytes
  ordered := by
    refine List.pairwise_map.2 (htext.ordered.imp_of_mem fun {t u} ht hu hbehind => ?_)
    have hplaced := htext.placed t ht
    have hstop : (t.inBytes source).stop ≤ (u.inBytes source).start := by
      rw [hplaced.stop_inBytes]
      exact byteOffset_le source hbehind.2
    exact ⟨hplaced.inBytes.start_lt.trans_le hstop, hstop⟩
  slice_eq _ _ := slice_octets source

/-- **The scanner loses nothing.**  Where a source text has tokens, they are parts of it, none of
them empty, each behind the one before; an opening tag is the first of them and a closing tag the
last. All else in the text, up to a closing tag, is trivia, and a preamble before an opening tag. A
scan of the bytes finds the same tokens, each of which starts and ends between two characters. -/
theorem tokenize_lossless {source : Text} {tokens : List Token}
    (h : tokenize source = .ok tokens) : Lossless source tokens where
  inText := inText_of_tokenize h
  inBytes := (inText_of_tokenize h).inBytes h

/-- A byte order mark and an interpreter before the opening tag, a space of two bytes, comments that
hold a closing tag and end before one, a character of two bytes behind a backslash, and text behind
the closing tag. -/
theorem tokenize_lossless_between_tags :
    let source := "\uFEFF#!/bin/php\n\u00A0<?PHP // a\n/*?>*/return 'x\\'\\é' # b?>rest".toList
    ∃ tokens, tokenize source = .ok tokens ∧
      tokens.map Token.kind = [.openTag, .word, .string, .closeTag] ∧
      tokens.map (fun t => ((t.inBytes source).start, (t.inBytes source).stop)) =
        [(16, 21), (33, 39), (40, 48), (52, 54)] ∧
      Lossless source tokens := by
  intro source
  have htokens : tokenize source = .ok ((tokenize source).toOption.getD []) :=
    eq_ok_of_toOption (by decide +kernel)
  exact ⟨_, htokens, by decide +kernel, by decide +kernel, tokenize_lossless htokens⟩

end Script
end Scaffold

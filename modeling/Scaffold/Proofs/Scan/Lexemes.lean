/-
# Texts of known tokens

A program text that is put together from tokens, with white space before them, is scanned as these
tokens if each of them ends where it is meant to. One character behind a token tells that
(`pieceAt_of_next`), so it can be checked token by token (`fits`, `Lexeme.allFit`), and a text that
passes has the tokens it was put together from (`tokensFrom_lexemes`).
-/

import Scaffold.Proofs.Scan.Gap

namespace Scaffold
namespace Script

/-! ### One character ahead -/

/-- A run of characters that ends before the next one ends there whatever follows. -/
theorem takeWhile_append_of_next {p : Char → Bool} {more v : Text}
    (h : ((more ++ v.head?.toList).takeWhile p).length = more.length) :
    (more ++ v).takeWhile p = more := by
  rw [List.takeWhile_append] at h ⊢
  split at h
  · rename_i hall
    have hnext : (v.head?.toList).takeWhile p = [] := by
      rw [List.length_append] at h
      exact List.length_eq_zero_iff.1 (by omega)
    rw [if_pos hall]
    cases v with
    | nil => exact List.append_nil more
    | cons d v =>
      have hd : ¬p d = true := by
        intro hd
        rw [List.head?_cons, Option.toList_some, List.takeWhile_cons_of_pos hd] at hnext
        cases hnext
      rw [List.takeWhile_cons_of_neg hd, List.append_nil]
  · rename_i hall
    exact absurd h hall

/-- The first character of a text does not depend on what follows the next one. -/
theorem head?_append_next (more v : Text) :
    (more ++ v.head?.toList).head? = (more ++ v).head? := by
  cases more with
  | nil => cases v <;> rfl
  | cons => rfl

/-- **One character behind a token tells where it ends.** Strings aside, a token is the same before
every text that starts with that character. -/
theorem pieceAt_of_next {c : Char} {more v : Text} {kind : TokenKind}
    (h : pieceAt c (more ++ v.head?.toList) = .ok (.token kind, more.length))
    (hquote : isQuote c = false) (hangle : c ≠ '<') :
    pieceAt c (more ++ v) = .ok (.token kind, more.length) := by
  have hhead := head?_append_next more v
  have hpair : pair? c (more ++ v.head?.toList) = pair? c (more ++ v) := by
    unfold pair?
    rw [hhead]
  have hcomment : startsComment c (more ++ v.head?.toList) = startsComment c (more ++ v) := by
    unfold startsComment
    rw [hhead]
  have hshape := pieceShape_of_pieceAt h
  generalize hn : more.length = n at hshape
  generalize hk : PieceKind.token kind = pieceKind at hshape
  refine PieceShape.pieceAt_eq ?_
  cases hshape with
  | blank => cases hk
  | comment => cases hk
  | quoted quote => exact absurd quote (Bool.eq_false_iff.1 hquote)
  | heredoc angle => exact absurd angle hangle
  | pair pair => exact .pair (hpair ▸ pair)
  | punctuation single => exact .punctuation single
  | variableName dollar name =>
    have hname := PieceShape.variableName dollar (hhead ▸ name)
    rwa [takeWhile_append_of_next hn.symm, hn] at hname
  | word char =>
    have hword : PieceShape c (more ++ v) (.token .word) _ := .word char
    rwa [takeWhile_append_of_next hn.symm, hn] at hword
  | symbol gap comment quote heredoc pair single dollar char =>
    exact .symbol gap (hcomment ▸ comment) quote (fun h => hangle h.1) (hpair ▸ pair) single
      (hhead ▸ dollar) char

/-! ### Lexemes -/

/-- White space and the token behind it. -/
structure Lexeme where
  gap : Text
  kind : TokenKind
  text : Text
deriving DecidableEq, Repr

namespace Lexeme

/-- The text of some lexemes. -/
def written (lexemes : List Lexeme) : Text := lexemes.flatMap fun l => l.gap ++ l.text

/-- The tokens of lexemes that start at position `offset`. -/
def tokens (offset : Nat) : List Lexeme → List Token
  | [] => []
  | l :: later =>
    let start := offset + l.gap.length
    ⟨l.kind, start, l.text⟩ :: tokens (start + l.text.length) later

/-- The lexeme is scanned as such before the character `next`, or at the end. -/
def fits (next : Option Char) (l : Lexeme) : Bool :=
  l.gap.all isGap && l.kind != .closeTag &&
    match l.text with
    | [] => false
    | c :: more =>
      !isQuote c && c != '<' &&
        (pieceAt c (more ++ next.toList)).toOption == some (.token l.kind, more.length)

/-- Every lexeme is scanned as such before the next one; `next` is the character behind the last. -/
def allFit (next : Option Char) : List Lexeme → Bool
  | [] => true
  | l :: later => l.fits ((written later).head?.or next) && allFit next later

/-- Words are written one by one, each behind its gap. -/
theorem written_cons (l : Lexeme) (later : List Lexeme) :
    written (l :: later) = l.gap ++ (l.text ++ written later) := by
  rw [written, List.flatMap_cons, List.append_assoc]
  rfl

/-- Words that follow others are written behind them. -/
theorem written_append (ls ms : List Lexeme) : written (ls ++ ms) = written ls ++ written ms :=
  List.flatMap_append

/-- Words fit one behind the other. -/
theorem allFit_append {next : Option Char} {ls ms : List Lexeme} {c : Char}
    (hls : allFit (some c) ls = true) (hc : (written ms).head? = some c)
    (hms : allFit next ms = true) : allFit next (ls ++ ms) = true := by
  induction ls with
  | nil => exact hms
  | cons l ls ih =>
    obtain ⟨hl, hlater⟩ := Bool.and_eq_true_iff.1 hls
    rw [List.cons_append, allFit, written_append, List.head?_append, hc]
    refine Bool.and_eq_true_iff.2 ⟨?_, ih hlater⟩
    rwa [Option.or_some, Option.some_or, ← Option.or_some]

/-- A word fits where no word goes on behind it. -/
theorem fits_word {c : Char} {more gap : Text} (hgap : ∀ d ∈ gap, isGap d = true)
    (h : ∀ d ∈ c :: more, isWordChar d = true) {next : Option Char}
    (hnext : ¬next.any isWordChar = true) : fits next ⟨gap, .word, c :: more⟩ = true := by
  obtain ⟨hc, hmore⟩ := List.forall_mem_cons.1 h
  have hquote : isQuote c = false := by
    rw [Bool.eq_false_iff]
    intro hq
    rcases isQuote_cases hq with rfl | rfl | rfl <;> exact absurd hc (by decide)
  have hangle : c ≠ '<' := by
    rintro rfl
    exact absurd hc (by decide)
  have htake : (more ++ next.toList).takeWhile isWordChar = more := by
    refine takeWhile_of_forall hmore ?_
    cases next with
    | none => exact Bool.false_ne_true
    | some d => exact hnext
  have hstep : pieceAt c (more ++ next.toList) = .ok (.token .word, more.length) := by
    rw [pieceAt_of_isWordChar hc, htake]
  simpa [fits, hquote, hangle, hstep, Except.toOption] using hgap

/-- A word that fits is cut into itself, behind a gap of white space. -/
theorem cut_of_fits {l : Lexeme} {v : Text} (h : l.fits v.head? = true) :
    (∀ c ∈ l.gap, isGap c = true) ∧ Cut v l.text [⟨.token l.kind, l.text⟩] := by
  obtain ⟨gap, kind, text⟩ := l
  rw [fits, Bool.and_eq_true, Bool.and_eq_true] at h
  obtain ⟨⟨hgap, hinside⟩, htext⟩ := h
  refine ⟨List.all_eq_true.1 hgap, ?_⟩
  cases text with
  | nil => cases htext
  | cons c more =>
    simp only [Bool.and_eq_true, bne_iff_ne, ne_eq, beq_iff_eq, Bool.not_eq_true'] at htext hinside
    obtain ⟨⟨hquote, hangle⟩, hstep⟩ := htext
    refine Cut.single (pieceAt_of_next (eq_ok_of_toOption hstep) hquote hangle) ?_
    rwa [ne_eq, PieceKind.token.injEq]

/-- **A text of lexemes that fit is scanned as these.** White space may follow them. -/
theorem tokensFrom_written {ls : List Lexeme} {g : Text} (hg : ∀ c ∈ g, isGap c = true)
    (h : allFit g.head? ls = true) (offset : Nat) :
    tokensFrom offset (written ls ++ g) = .ok (tokens offset ls) := by
  induction ls generalizing offset with
  | nil =>
    have hgap : Skipped [] g := .of_isGap hg
    have hempty : tokensFrom (offset + g.length) [] = .ok [] := by
      rw [tokensFrom, pieces]
      rfl
    have happend := hgap.tokensFrom_append offset
    rwa [List.append_nil, hempty] at happend
  | cons l ls ih =>
    rw [allFit, Bool.and_eq_true, ← List.head?_append] at h
    obtain ⟨hgap, hcut⟩ := cut_of_fits h.1
    have hgap : Skipped (l.text ++ (written ls ++ g)) l.gap := .of_isGap hgap
    rw [written_cons, List.append_assoc, List.append_assoc, hgap.tokensFrom_append,
      hcut.tokensFrom_append, ih h.2]
    rfl

end Lexeme
end Script
end Scaffold

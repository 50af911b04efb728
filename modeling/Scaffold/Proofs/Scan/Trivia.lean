/-
# What stands between tokens

Between two tokens a source text holds white space and whole comments. `Trivia after g` says so of
the text `g` before the text `after`, in the terms of the language and not of the scanner:

| comment | starts with | ends |
| --- | --- | --- |
| line comment | `//`, or a `#` that no `[` follows | before a newline, a `?>` or the end |
| block comment | `/*` | with the first `*/` after it |

What the scanner skips is of this form, piece by piece (`Trivia.of_piece`).
-/

import Scaffold.Proofs.Scan.Pieces

namespace Scaffold
namespace Script

/-- The white space between tokens: space, tab, carriage return, newline, vertical tab and form
feed. -/
def whiteSpace : List Char := [' ', '\t', '\r', '\n', '\x0b', '\x0c']

/-- A line of a program ends before this text. -/
def EndsLine (rest : Text) : Prop := rest = [] ∨ ['\n'] <+: rest ∨ ['?', '>'] <+: rest

/-- Before the text `after`, white space and whole comments. -/
inductive Trivia (after : Text) : Text → Prop
  | nil : Trivia after []
  | space {c : Char} {g : Text} (white : c ∈ whiteSpace) (later : Trivia after g) :
      Trivia after (c :: g)
  | line {opener body g : Text}
      (opens : opener = ['/', '/'] ∨ opener = ['#'] ∧ body.head? ≠ some '[')
      (inside : '\n' ∉ body ∧ ¬['?', '>'] <:+: body) (ends : EndsLine (g ++ after))
      (later : Trivia after g) : Trivia after (opener ++ (body ++ g))
  | block {body g : Text} (inside : ¬['*', '/'] <:+: body) (later : Trivia after g) :
      Trivia after (['/', '*'] ++ (body ++ (['*', '/'] ++ g)))

/-- White space, character by character. -/
theorem isGap_iff_mem {c : Char} : isGap c = true ↔ c ∈ whiteSpace := by
  simp only [isGap, isAsciiBlank, whiteSpace, Bool.or_eq_true, beq_iff_eq, List.mem_cons,
    List.not_mem_nil, or_false]
  tauto

/-! ### Where comments end -/

/-- A pair of characters that stands in no part of a text stands in the text with one more
character only at its head. -/
theorem not_pair_infix_cons {a b c : Char} {text : Text} (h : ¬[a, b] <:+: text)
    (hc : ¬(c = a ∧ text.head? = some b)) : ¬[a, b] <:+: c :: text := by
  rw [List.infix_cons_iff]
  rintro (hp | hi)
  · obtain ⟨rfl, hb⟩ := List.cons_prefix_cons.1 hp
    obtain ⟨w, rfl⟩ := hb
    exact hc ⟨rfl, rfl⟩
  · exact h hi

/-- A line comment goes on to the end of its line. -/
theorem lineCommentLength_spec (text : Text) : ∃ body rest, text = body ++ rest ∧
    lineCommentLength text = body.length ∧ ('\n' ∉ body ∧ ¬['?', '>'] <:+: body) ∧
    EndsLine rest := by
  induction text with
  | nil => exact ⟨[], [], rfl, rfl, by simp, Or.inl rfl⟩
  | cons c text ih =>
    rw [lineCommentLength]
    by_cases hc : c = '\n' ∨ c = '?' ∧ text.head? = some '>'
    · rw [if_pos hc]
      refine ⟨[], c :: text, rfl, rfl, by simp, Or.inr ?_⟩
      rcases hc with rfl | ⟨rfl, htext⟩
      · exact Or.inl ⟨text, rfl⟩
      · obtain ⟨w, rfl⟩ := List.head?_eq_some_iff.1 htext
        exact Or.inr ⟨w, rfl⟩
    · rw [if_neg hc]
      obtain ⟨body, rest, rfl, hlength, ⟨hline, htag⟩, hends⟩ := ih
      rw [not_or] at hc
      refine ⟨c :: body, rest, rfl, congrArg (· + 1) hlength, ⟨?_, ?_⟩, hends⟩
      · exact List.not_mem_cons_of_ne_of_not_mem (Ne.symm hc.1) hline
      · refine not_pair_infix_cons htag ?_
        rintro ⟨hq, hgt⟩
        obtain ⟨w, rfl⟩ := List.head?_eq_some_iff.1 hgt
        exact hc.2 ⟨hq, rfl⟩

/-- A block comment goes on through the first `*/`. -/
theorem blockCommentLength_spec {text : Text} {n : Nat} (h : blockCommentLength text = some n) :
    ∃ body rest, text = body ++ (['*', '/'] ++ rest) ∧ n = body.length + 2 ∧
      ¬['*', '/'] <:+: body := by
  induction text generalizing n with
  | nil => cases h
  | cons c text ih =>
    rw [blockCommentLength] at h
    by_cases hc : c = '*' ∧ text.head? = some '/'
    · rw [if_pos hc] at h
      cases h
      obtain ⟨rfl, htext⟩ := hc
      obtain ⟨w, rfl⟩ := List.head?_eq_some_iff.1 htext
      exact ⟨[], w, rfl, rfl, by simp⟩
    · rw [if_neg hc] at h
      obtain ⟨m, hm, rfl⟩ := Option.map_eq_some_iff.1 h
      obtain ⟨body, rest, rfl, rfl, hfirst⟩ := ih hm
      refine ⟨c :: body, rest, rfl, rfl, not_pair_infix_cons hfirst ?_⟩
      rintro ⟨hq, hs⟩
      obtain ⟨w, rfl⟩ := List.head?_eq_some_iff.1 hs
      exact hc ⟨hq, rfl⟩

/-! ### What the scanner skips -/

section
variable {c : Char} {rest g after : Text} {n : Nat}

/-- A comment that the scanner skips is a whole one. -/
theorem Trivia.of_comment (starts : startsComment c rest = true)
    (length : commentLength c rest = some n) (hrest : rest.drop n = g ++ after)
    (hg : Trivia after g) : Trivia after (c :: (rest.take n ++ g)) := by
  unfold startsComment at starts
  unfold commentLength at length
  by_cases hslash : c = '/'
  · rw [if_pos hslash, Bool.or_eq_true, decide_eq_true_eq, decide_eq_true_eq] at starts
    subst hslash
    rcases starts with hhead | hhead
    · -- two slashes
      obtain ⟨text, rfl⟩ := List.head?_eq_some_iff.1 hhead
      rw [if_neg (by simp), Option.some.injEq] at length
      obtain ⟨body, later, rfl, hbody, hinside, hends⟩ := lineCommentLength_spec text
      obtain rfl : n = body.length + 1 := by
        rw [← length, lineCommentLength, if_neg (by simp), hbody]
      rw [List.drop_succ_cons, List.drop_left] at hrest
      rw [List.take_succ_cons, List.take_left]
      exact .line (Or.inl rfl) hinside (hrest ▸ hends) hg
    · obtain ⟨text, rfl⟩ := List.head?_eq_some_iff.1 hhead
      rw [if_pos ⟨rfl, rfl⟩, List.tail_cons] at length
      obtain ⟨m, hm, rfl⟩ := Option.map_eq_some_iff.1 length
      obtain ⟨body, later, rfl, rfl, hinside⟩ := blockCommentLength_spec hm
      have htake : (body ++ (['*', '/'] ++ later)).take (body.length + 2) = body ++ ['*', '/'] := by
        rw [List.take_length_add_append]
        rfl
      rw [List.take_succ_cons, htake, List.cons_append, List.append_assoc]
      exact .block hinside hg
  · rw [if_neg hslash, Bool.and_eq_true, decide_eq_true_eq, bne_iff_ne] at starts
    obtain ⟨rfl, hhead⟩ := starts
    rw [if_neg (by simp), Option.some.injEq] at length
    obtain ⟨body, later, rfl, hbody, hinside, hends⟩ := lineCommentLength_spec rest
    obtain rfl : n = body.length := length.symm.trans hbody
    rw [List.drop_left] at hrest
    rw [List.take_left]
    refine .line (Or.inr ⟨rfl, fun hb => hhead ?_⟩) hinside (hrest ▸ hends) hg
    obtain ⟨w, rfl⟩ := List.head?_eq_some_iff.1 hb
    rfl

/-- **What the scanner skips is trivia.** -/
theorem Trivia.of_piece {kind : PieceKind} (h : pieceAt c rest = .ok (kind, n))
    (hk : ∀ k, kind ≠ .token k) (hrest : rest.drop n = g ++ after) (hg : Trivia after g) :
    Trivia after (c :: (rest.take n ++ g)) := by
  cases pieceShape_of_pieceAt h with
  | blank gap =>
    rw [List.take_zero]
    exact .space (isGap_iff_mem.1 gap) hg
  | comment starts length => exact .of_comment starts length hrest hg
  | _ => exact absurd rfl (hk _)

end

end Script
end Scaffold

/-
# How far the scanners look ahead

A scanner sees all of the remaining text, but what it finds depends on little more than what it
takes. Here each one is run on `x ++ v`, where what it takes lies within `x`, and its answer is the
same with another text in the place of `v`:

| scanner | what it needs of the text after `x` |
| --- | --- |
| block comment, quoted string | nothing |
| line comment that ends within `x` | no `>`, which would make a tag of a question mark |
| run of characters | that it does not go on with the run |

A line comment that reaches the end of `x` goes on in what follows.
-/

import Scaffold.Script.Scan
import Mathlib.Data.List.TakeWhile
import Mathlib.Tactic.Tauto

namespace Scaffold
namespace Script

/-! ### Runs of characters -/

/-- A run of characters that ends within `x` is as long before another text that does not go on
with the run. -/
theorem length_takeWhile_append {p : Char → Bool} {x v v' : Text} {n : Nat}
    (h : ((x ++ v).takeWhile p).length = n) (hn : n ≤ x.length) (hv : ¬v'.head?.any p) :
    ((x ++ v').takeWhile p).length = n := by
  have hv' : v'.takeWhile p = [] := by
    cases v' with
    | nil => rfl
    | cons c w => exact List.takeWhile_cons_of_neg hv
  rw [List.takeWhile_append] at h ⊢
  split at h
  · rename_i he
    rw [List.length_append] at h
    rw [if_pos he, hv', List.append_nil]
    omega
  · rename_i he
    rw [if_neg he]
    exact h

/-- A run of characters ends before the first other one. -/
theorem takeWhile_of_forall {p : Char → Bool} {text v : Text} (h : ∀ c ∈ text, p c = true)
    (hv : ¬v.head?.any p) : (text ++ v).takeWhile p = text := by
  rw [List.takeWhile_append_of_pos h]
  cases v with
  | nil => simp
  | cons c v =>
    have hc : ¬p c = true := hv
    rw [List.takeWhile_cons_of_neg hc, List.append_nil]

/-- A character that a name may start with is a word character. -/
theorem isWordChar_of_isNameStart {c : Char} (h : isNameStart c = true) : isWordChar c = true := by
  simp only [isNameStart, isWordChar, Char.isAlphanum, Bool.or_eq_true, decide_eq_true_eq] at h ⊢
  tauto

/-! ### Comments -/

/-- A line comment that ends within `x` does not depend on what follows `x`. -/
theorem lineCommentLength_append_of_lt {x v : Text}
    (h : lineCommentLength (x ++ v) < x.length) (hv : v.head? ≠ some '>') (v' : Text) :
    lineCommentLength (x ++ v') = lineCommentLength (x ++ v) := by
  induction x with
  | nil => exact absurd h (Nat.not_lt_zero _)
  | cons c x ih =>
    rw [List.cons_append, lineCommentLength] at h ⊢
    rw [List.cons_append, lineCommentLength]
    by_cases hc : c = '\n' ∨ c = '?' ∧ (x ++ v).head? = some '>'
    · have hc' : c = '\n' ∨ c = '?' ∧ (x ++ v').head? = some '>' := by
        cases x with
        | nil => exact Or.inl (hc.resolve_right fun hq => hv hq.2)
        | cons d x => exact hc
      rw [if_pos hc, if_pos hc']
    · rw [if_neg hc, List.length_cons] at h
      have hc' : ¬(c = '\n' ∨ c = '?' ∧ (x ++ v').head? = some '>') := by
        cases x with
        | nil => exact absurd h (by simp)
        | cons d x => exact hc
      rw [if_neg hc, if_neg hc', ih (by omega)]

/-- A line comment that reaches the end of `x` goes on in what follows `x`. -/
theorem lineCommentLength_append_of_le {x v : Text}
    (h : x.length ≤ lineCommentLength (x ++ v)) {v' : Text} (hv : v'.head? ≠ some '>') :
    lineCommentLength (x ++ v') = x.length + lineCommentLength v' := by
  induction x with
  | nil => simp
  | cons c x ih =>
    rw [List.cons_append, lineCommentLength] at h ⊢
    by_cases hc : c = '\n' ∨ c = '?' ∧ (x ++ v).head? = some '>'
    · rw [if_pos hc] at h
      exact absurd h (by simp)
    · have hc' : ¬(c = '\n' ∨ c = '?' ∧ (x ++ v').head? = some '>') := by
        cases x with
        | nil => exact fun hq => hq.elim (fun hn => hc (Or.inl hn)) fun hq => hv hq.2
        | cons d x => exact hc
      rw [if_neg hc, List.length_cons] at h
      rw [if_neg hc', ih (by omega), List.length_cons]
      omega

/-- A block comment has two characters at its end. -/
theorem two_le_blockCommentLength {text : Text} {n : Nat} (h : blockCommentLength text = some n) :
    2 ≤ n := by
  induction text generalizing n with
  | nil => cases h
  | cons c rest ih =>
    unfold blockCommentLength at h
    split at h
    · cases h
      exact Nat.le_refl 2
    · obtain ⟨m, hm, rfl⟩ := Option.map_eq_some_iff.1 h
      have := ih hm
      omega

/-- A block comment that ends within `x` does not depend on what follows `x`. -/
theorem blockCommentLength_append {x v : Text} {n : Nat}
    (h : blockCommentLength (x ++ v) = some n) (hn : n ≤ x.length) (v' : Text) :
    blockCommentLength (x ++ v') = some n := by
  induction x generalizing n with
  | nil =>
    have := two_le_blockCommentLength h
    exact absurd hn (by simp; omega)
  | cons c x ih =>
    have h2 := two_le_blockCommentLength h
    simp only [List.length_cons] at hn
    cases x with
    | nil => exact absurd hn (by simp; omega)
    | cons d x =>
      rw [List.cons_append, blockCommentLength] at h ⊢
      by_cases hc : c = '*' ∧ (d :: x ++ v).head? = some '/'
      · have hc' : c = '*' ∧ (d :: x ++ v').head? = some '/' := hc
        rw [if_pos hc] at h
        rw [if_pos hc', h]
      · have hc' : ¬(c = '*' ∧ (d :: x ++ v').head? = some '/') := hc
        rw [if_neg hc] at h
        obtain ⟨m, hm, rfl⟩ := Option.map_eq_some_iff.1 h
        rw [if_neg hc', ih hm (by omega)]
        rfl

/-! ### Quoted strings -/

/-- A string has a quote at its end. -/
theorem quotedLength_pos {quote : Char} {text : Text} {n : Nat}
    (h : quotedLength quote text = some n) : 0 < n := by
  fun_induction quotedLength quote text generalizing n <;> simp_all
  all_goals obtain ⟨m, _, rfl⟩ := h; omega

/-- A quoted string that ends within `x` does not depend on what follows `x`. -/
theorem quotedLength_append {quote : Char} (hq : quote ≠ '\\') {x v : Text} {n : Nat}
    (h : quotedLength quote (x ++ v) = some n) (hn : n ≤ x.length) (v' : Text) :
    quotedLength quote (x ++ v') = some n := by
  have hpos := quotedLength_pos h
  match x with
  | [] => exact absurd hn (by simp; omega)
  | [c] =>
    have hc : c = quote := by
      by_contra hc
      cases v with
      | nil => simp [quotedLength, hc] at h
      | cons d w =>
        simp only [List.cons_append, List.nil_append, quotedLength, hc, if_false] at h
        split at h
        all_goals
          obtain ⟨m, hm, rfl⟩ := Option.map_eq_some_iff.1 h
          have := quotedLength_pos hm
          simp only [List.length_singleton] at hn
          omega
    have h1 : n = 1 := by simp at hn; omega
    subst hc h1
    cases v' with
    | nil => simp [quotedLength]
    | cons d w => simp [quotedLength, hq]
  | c :: d :: x =>
    simp only [List.cons_append, quotedLength, List.length_cons] at h hn ⊢
    split at h
    · rename_i hc
      obtain ⟨m, hm, rfl⟩ := Option.map_eq_some_iff.1 h
      rw [if_pos hc, quotedLength_append hq hm (by omega) v']
      rfl
    · rename_i hc
      rw [if_neg hc]
      split at h
      · rename_i hc'
        rw [if_pos hc']
        exact h
      · rename_i hc'
        obtain ⟨m, hm, rfl⟩ := Option.map_eq_some_iff.1 h
        rw [← List.cons_append] at hm ⊢
        rw [if_neg hc', quotedLength_append hq hm (by simp; omega) v']
        rfl
termination_by x.length

end Script
end Scaffold

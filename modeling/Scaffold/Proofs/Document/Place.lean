/-
# Where a new line may be opened

A new item is put into the gap between two tokens. A gap can be cut where a line breaks and no
comment goes on: behind the last comment (`lastCommentEnd_split`), and at the end of a line that
holds nothing or a line comment (`endOfLine_split`).
-/

import Scaffold.Config.Insertion
import Scaffold.Proofs.Scan.Around
import Scaffold.Proofs.Literal.LastComment

namespace Scaffold
namespace Config

open Script (Skipped StartsToken isGap pieceAt)

/-- White space of the scanner is white space in the sense of Unicode. -/
theorem isBlank_of_isGap {c : Char} (h : isGap c = true) : isBlank c = true := by
  unfold isGap at h
  rcases Bool.or_eq_true _ _ ▸ h with h | h
  · exact isBlank_of_isAsciiBlank h
  · rw [beq_iff_eq] at h
    subst h
    decide

/-- Trimming drops white space at the head. -/
theorem trim_cons_blank {c : Char} (h : isBlank c = true) (text : Text) :
    Text.trim (c :: text) = Text.trim text := by
  unfold Text.trim Text.trimBoth
  rw [List.dropWhile_cons_of_pos h]

/-- Trimming keeps two characters at the head that are no white space. -/
theorem trim_cons_cons {c d : Char} (hc : isBlank c = false) (hd : isBlank d = false)
    (text : Text) :
    ∃ rest, Text.trim (c :: d :: text) = c :: d :: rest := by
  refine ⟨(text.reverse.dropWhile isBlank).reverse, ?_⟩
  unfold Text.trim Text.trimBoth Text.dropEndWhile
  rw [List.dropWhile_cons_of_neg (by rw [hc]; exact Bool.false_ne_true), List.reverse_cons,
    List.reverse_cons, List.append_assoc, List.dropWhile_append]
  split
  · rename_i he
    rw [List.isEmpty_iff.1 he, List.singleton_append,
      List.dropWhile_cons_of_neg (by rw [hd]; exact Bool.false_ne_true)]
    rfl
  · rw [List.reverse_append]
    rfl

/-- The first line of a text is one line. -/
theorem append_newline_inj {line line' rest rest' : Text} (h : '\n' ∉ line) (h' : '\n' ∉ line')
    (he : line ++ '\n' :: rest = line' ++ '\n' :: rest') : line = line' ∧ rest = rest' := by
  induction line generalizing line' with
  | nil =>
    cases line' with
    | nil => exact ⟨rfl, (List.cons.inj he).2⟩
    | cons d line' =>
      obtain ⟨rfl, -⟩ := List.cons.inj he
      exact absurd List.mem_cons_self h'
  | cons c line ih =>
    cases line' with
    | nil =>
      obtain ⟨rfl, -⟩ := List.cons.inj he
      exact absurd List.mem_cons_self h
    | cons d line' =>
      obtain ⟨rfl, hrest⟩ := List.cons.inj he
      obtain ⟨rfl, rfl⟩ := ih (fun hn => h (List.mem_cons_of_mem _ hn))
        (fun hn => h' (List.mem_cons_of_mem _ hn)) hrest
      exact ⟨rfl, rfl⟩

/-- **The end of a line that holds nothing or a line comment.** -/
theorem endOfLine_split {z line rest : Text} (h : Skipped z (line ++ '\n' :: rest))
    (hz : StartsToken z) (hline : '\n' ∉ line)
    (hshown : (Text.trim line).isEmpty = true ∨ startsLineComment (Text.trim line) = true) :
    Skipped ('\n' :: (rest ++ z)) line ∧ Skipped z ('\n' :: rest) := by
  generalize hg : line ++ '\n' :: rest = g at h
  induction h using Skipped.induction generalizing line with
  | nil => exact absurd hg (by simp)
  | blank c u h hc _ ih =>
    cases line with
    | nil =>
      rw [List.nil_append] at hg
      rw [hg]
      exact ⟨.nil, h⟩
    | cons d line =>
      obtain ⟨rfl, hu⟩ := List.cons.inj hg
      rw [trim_cons_blank (isBlank_of_isGap hc)] at hshown
      obtain ⟨ha, hb⟩ := ih (fun hn => hline (List.mem_cons_of_mem _ hn)) hshown hu
      exact ⟨.cons_blank hc ha, hb⟩
  | block c more u _ hslash hstar _ _ _ =>
    -- a line that starts with a block comment shows no line comment
    exfalso
    subst hslash
    rcases line with _ | ⟨d, _ | ⟨e, line⟩⟩
    · cases hg
    · obtain ⟨-, hsecond⟩ := List.cons.inj hg
      cases more with
      | nil => cases hstar
      | cons f more =>
        cases hstar
        cases hsecond
    · obtain ⟨rfl, hsecond⟩ := List.cons.inj hg
      cases more with
      | nil => cases hstar
      | cons f more =>
        cases hstar
        obtain ⟨rfl, -⟩ := List.cons.inj hsecond
        obtain ⟨text, ht⟩ := trim_cons_cons (c := '/') (d := '*') rfl rfl line
        rw [ht] at hshown
        rcases hshown with h | h <;> cases h
  | line c more u _ _ h0 hnl hstep hu ih =>
    rcases hu.head_newline h0 with rfl | ⟨u, rfl⟩
    · exact absurd h0 hz.lineCommentLength_ne_zero
    · obtain ⟨rfl, rfl⟩ := append_newline_inj hline hnl hg
      refine ⟨?_, hu⟩
      have hcomment : Skipped ('\n' :: (rest ++ z)) (c :: (more ++ [])) :=
        .cons_comment (hstep [] _ (Or.inl rfl)) .nil
      rwa [List.append_nil] at hcomment

end Config
end Scaffold

/-
# Comments

A gap before a token has the same comments before every text, and a line break behind a gap gives
its last comment a carriage return at most (`Skipped.commented`).
-/

import Mathlib.Data.List.Forall2
import Scaffold.Proofs.Scan.Gap

namespace Scaffold
namespace Script

/-- The comments of a source text. -/
def comments (source : Text) : Except FaultAt (List Text) := (scan source).map commentsOf

/-- The second comments are the first, but for carriage returns that end them. -/
def SameComments (cs cs' : List Text) : Prop :=
  List.Forall₂ (fun c c' => ∃ cr, OptionalReturn cr ∧ c' = c ++ cr) cs cs'

namespace SameComments

variable {cs cs' ds ds' : List Text}

/-- The same comments with one more in front are the same. -/
theorem cons (c : Text) (h : SameComments cs cs') : SameComments (c :: cs) (c :: cs') :=
  List.Forall₂.cons ⟨[], Or.inl rfl, (List.append_nil c).symm⟩ h

/-- Comments are the same as themselves. -/
theorem refl (cs : List Text) : SameComments cs cs := by
  induction cs with
  | nil => exact List.Forall₂.nil
  | cons c cs ih => exact cons c ih

/-- The same comments one after the other are the same. -/
theorem append (h : SameComments cs cs') (hd : SameComments ds ds') :
    SameComments (cs ++ ds) (cs' ++ ds') :=
  List.rel_append h hd

end SameComments

/-- **The comments of a gap.** Before a token, what follows the gap does not matter for them; and a
line break behind the gap lengthens the last one by a carriage return at most. -/
theorem Skipped.commented {v g : Text} (h : Skipped v g) : ∃ cs, Commented v g cs ∧
    (StartsToken v → ∀ w, Commented w g cs) ∧
    ∀ cr, OptionalReturn cr → ∃ cs', SameComments cs cs' ∧
      ∀ w, Commented w (g ++ (cr ++ ['\n'])) cs' := by
  induction h using Skipped.induction with
  | nil =>
    refine ⟨[], .nil, fun _ _ => .nil, fun cr hcr => ⟨[], .refl [], fun w => .of_isGap ?_⟩⟩
    rcases hcr with rfl | rfl <;> exact List.all_eq_true.1 rfl
  | blank c u _ hc _ ih =>
    obtain ⟨cs, hcs, hany, hbreak⟩ := ih
    refine ⟨cs, hcs.cons_blank hc, fun hv w => (hany hv w).cons_blank hc, fun cr hcr => ?_⟩
    obtain ⟨cs', hsame, hnew⟩ := hbreak cr hcr
    exact ⟨cs', hsame, fun w => (hnew w).cons_blank hc⟩
  | block c more u _ _ _ hblock _ ih =>
    obtain ⟨cs, hcs, hany, hbreak⟩ := ih
    refine ⟨(c :: more) :: cs, hcs.cons_comment (hblock _),
      fun hv w => (hany hv w).cons_comment (hblock _), fun cr hcr => ?_⟩
    obtain ⟨cs', hsame, hnew⟩ := hbreak cr hcr
    refine ⟨_, hsame.cons _, fun w => ?_⟩
    rw [List.cons_append, List.append_assoc]
    exact (hnew w).cons_comment (hblock _)
  | line c more u _ step h0 _ hline hu ih =>
    rcases hu.head_newline h0 with rfl | ⟨u, rfl⟩
    · refine ⟨[c :: more], Commented.nil.cons_comment step,
        fun hv => absurd h0 hv.lineCommentLength_ne_zero, fun cr hcr => ?_⟩
      -- the line comment takes the carriage return in
      refine ⟨[(c :: more) ++ cr], List.Forall₂.cons ⟨cr, hcr, rfl⟩ .nil, fun w => ?_⟩
      have hend : Commented w ['\n'] [] := .of_isGap (List.all_eq_true.1 rfl)
      have hstep := hline cr w hcr
      rw [List.append_nil, List.cons_append, ← List.append_assoc]
      refine hend.cons_comment ?_
      rwa [List.append_assoc, List.length_append]
    · obtain ⟨cs, hcs, hany, hbreak⟩ := ih
      have hstep : ∀ w, pieceAt c (more ++ ('\n' :: w)) = .ok (.comment, more.length) :=
        fun w => hline [] w (Or.inl rfl)
      refine ⟨(c :: more) :: cs, hcs.cons_comment step,
        fun hv w => (hany hv w).cons_comment (hstep _), fun cr hcr => ?_⟩
      obtain ⟨cs', hsame, hnew⟩ := hbreak cr hcr
      refine ⟨_, hsame.cons _, fun w => ?_⟩
      rw [List.cons_append, List.append_assoc]
      exact (hnew w).cons_comment (hstep _)

/-- **A gap before a token is a gap before every text.** -/
theorem Skipped.anywhere {v g : Text} (h : Skipped v g) (hv : StartsToken v) (w : Text) :
    Skipped w g := by
  obtain ⟨cs, -, hany, -⟩ := h.commented
  exact (hany hv w).skipped

end Script
end Scaffold

/-
# What can be wrong with a source text

Each fault stands for one cause; its wording is in one place. A `FaultAt` is a fault and where it
was found.
-/

import Scaffold.Text.Basic

namespace Scaffold.Script

/-- Why a source text is not one returned array literal. -/
inductive Fault where
  | unterminatedComment
  | unterminatedString
  | malformedHeredocLabel
  | unterminatedHeredoc
  | mismatchedBracket
  | emptyElement
  | unexpectedArrow
  | missingValue
  | unexpectedSemicolon
  | unclosedArray
  | noReturn
  | notAnArray
  | codeAfterReturn
  | expectedSemicolon
  | missingSemicolon
deriving DecidableEq, Repr

/-- The wording of a fault. -/
def Fault.message : Fault → String
  | .unterminatedComment => "unterminated comment"
  | .unterminatedString => "unterminated string literal"
  | .malformedHeredocLabel => "malformed heredoc label"
  | .unterminatedHeredoc => "unterminated heredoc"
  | .mismatchedBracket => "mismatched bracket"
  | .emptyElement => "empty array element"
  | .unexpectedArrow => "unexpected '=>'"
  | .missingValue => "missing value after '=>'"
  | .unexpectedSemicolon => "unexpected ';' in array"
  | .unclosedArray => "array literal is not closed"
  | .noReturn => "no top-level return statement"
  | .notAnArray => "returned expression is not an array literal"
  | .codeAfterReturn => "unexpected code after the returned array"
  | .expectedSemicolon => "expected ';' after the returned array"
  | .missingSemicolon => "missing ';' after the returned array"

/-- A fault at a position of the source text. -/
structure FaultAt where
  fault : Fault
  offset : Nat
deriving DecidableEq, Repr

/-- A mapped result is a success just in case the result is. -/
theorem map_eq_ok_iff {ε α β : Type} {f : α → β} {x : Except ε α} {b : β} :
    x.map f = .ok b ↔ ∃ a, x = .ok a ∧ f a = b := by
  cases x <;> simp [Except.map]

/-- A result that gives a value is a success. -/
theorem eq_ok_of_toOption {ε α : Type} {x : Except ε α} {a : α} (h : x.toOption = some a) :
    x = .ok a := by
  cases x with
  | error => cases h
  | ok b => cases h; rfl

end Scaffold.Script

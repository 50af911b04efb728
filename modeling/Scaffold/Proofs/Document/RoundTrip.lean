/-
# A written literal on its own

Scanned on its own, the text of a literal is one string token, or the three tokens of a reference
to a class, and the expression that they are has the value of the literal in every file
(`Literal.tokenize_toSource`). So the scanner, the writer and the reader agree on backslashes and
quotes, and a class keeps its name under every import and namespace.
-/

import Scaffold.Proofs.Document.Written

namespace Scaffold
namespace Script

/-! ### Texts without an opening tag -/

/-- An opening tag starts with an angle sign. -/
theorem exists_eq_cons_of_openTag? {source before tag rest : Text}
    (h : openTag? source = some (before, tag, rest)) : ∃ more, tag = '<' :: more := by
  obtain ⟨-, -, c, more, -, -, -, rfl, -, -⟩ := openTag?_spec h
  simp only [openTag?, Option.ite_none_right_eq_some, Option.some.injEq, Prod.mk.injEq,
    Bool.and_eq_true] at h
  obtain ⟨⟨hname, -⟩, -, hopened, -⟩ := h
  rw [hopened] at hname
  have hlower : c.toLower = '<' := (List.cons.inj (beq_iff_eq.1 hname)).1
  exact ⟨more, by rw [eq_of_toLower_eq hlower (Or.inl (by decide))]⟩

/-- A text without an angle sign has no opening tag. -/
theorem openTag?_of_not_mem {source : Text} (h : '<' ∉ source) : openTag? source = none := by
  cases htag : openTag? source with
  | none => rfl
  | some found =>
    obtain ⟨before, tag, rest⟩ := found
    obtain ⟨more, rfl⟩ := exists_eq_cons_of_openTag? htag
    refine absurd ?_ h
    rw [← append_of_openTag? htag]
    exact List.mem_append_right _ List.mem_cons_self

/-- A text that starts with an apostrophe starts with no opening tag. -/
theorem openTag?_of_apostrophe (text : Text) : openTag? ('\x27' :: text) = none := by
  have hline : shebangLength ('\x27' :: text) = 0 := by
    rw [shebangLength_eq]
    simp [markLength]
  have hopened : ('\x27' :: text).dropWhile isBlank = '\x27' :: text :=
    List.dropWhile_cons_of_neg (by decide)
  simp only [openTag?, hline, List.drop_zero, hopened]
  exact if_neg (by simp [Text.equalsIgnoringCase])

/-- A text that is cut into tokens has these. -/
theorem tokenize_of_cut {source : Text} {ps : List Piece} (htag : openTag? source = none)
    (h : Cut [] source ps) : tokenize source = .ok (Token.ofPieces 0 ps) := by
  have hpieces := h.pieces_append 0
  rw [List.append_nil, pieces] at hpieces
  rw [tokenize, scan, htag]
  simp only [hpieces, Except.map, List.append_nil]

end Script

namespace Config

open Script (Token TokenKind Names Expression isWordChar)

namespace Literal

/-- The kinds of the tokens of a written literal. -/
def tokenKinds : Literal → List TokenKind
  | .string _ => [.string]
  | .classRef _ => [.word, .doubleColon, .word]

/-- A written literal starts with no opening tag. -/
theorem openTag?_toSource {literal : Literal} (h : literal.WellFormed) (names : Names) :
    Script.openTag? (literal.toSource names) = none := by
  cases literal with
  | string value => exact Script.openTag?_of_apostrophe _
  | classRef name =>
    obtain ⟨c, more, hspelled, hchars⟩ := spelled_chars h names
    have hsource : toSource names (.classRef name) = spelled names name ++ "::class".toList := rfl
    rw [hsource, hspelled]
    refine Script.openTag?_of_not_mem fun hmem => ?_
    rcases List.mem_append.1 hmem with hmem | hmem
    · exact absurd (hchars _ hmem) (by decide)
    · exact absurd hmem (by decide)

/-- **A literal makes the round trip.**  The text of a literal is scanned as one string or as the
three tokens of a reference, which are an expression from the first character of the text to its
last, with nothing between them; its value under the names that the literal was written for is
that of the literal. -/
theorem tokenize_toSource {literal : Literal} (h : literal.WellFormed) (hr : ¬literal.IsRelative)
    (names : Names) :
    ∃ e : Expression, Script.tokenize (literal.toSource names) = .ok e.tokens ∧
      e.tokens.map Token.kind = literal.tokenKinds ∧
      e.start = 0 ∧ e.stop = (literal.toSource names).length ∧
      (e.tokens.map Token.text).flatten = literal.toSource names ∧
      e.evaluate (literal.toSource names) names = .known literal.evaluated := by
  have hfragment := fragment h names
  have hcut := hfragment.cut [] (by simp)
  have htokens := Script.tokenize_of_cut (openTag?_toSource h names) hcut
  obtain ⟨hne, -⟩ := hfragment.balanced 0
  let e : Expression := ⟨Token.ofPieces 0 (literal.pieces names), hne⟩
  obtain ⟨hstart, hstop⟩ := hfragment.bounds e 0 rfl
  rw [Nat.zero_add] at hstop
  refine ⟨e, htokens, ?_, hstart, hstop, ?_, evaluate_pieces hr rfl _⟩
  · cases literal with
    | string => rfl
    | classRef => rfl
  · rw [← hcut.textOf_eq]
    cases literal with
    | string => rfl
    | classRef => rfl

/-- An import takes the first part of the name, in another case, and the name starts with the word
for the namespace of the file. -/
theorem tokenize_toSource_captured :
    let names : Names := ⟨some "App".toList, [⟨"NAMESPACE".toList, "Other".toList⟩]⟩
    let literal : Literal := .classRef "namespace\\Foo".toList
    literal.toSource names = "\\namespace\\Foo::class".toList ∧
      ∃ e : Expression, Script.tokenize (literal.toSource names) = .ok e.tokens ∧
        e.evaluate (literal.toSource names) names = .known "namespace\\Foo".toList := by
  intro names literal
  have hformed : literal.WellFormed := show ∀ part ∈ _, _ from by decide +kernel
  have hnamed : ¬literal.IsRelative := show ¬_ = true from by decide +kernel
  obtain ⟨e, htokens, -, -, -, -, hvalue⟩ := tokenize_toSource hformed hnamed names
  exact ⟨by decide +kernel, e, htokens, hvalue⟩

end Literal
end Config
end Scaffold

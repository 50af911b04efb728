/-
# The file of a factory

The file of a factory is an opening tag and the tokens of a class (`tokenize_source`). Its one
`return` stands inside the class, so the file itself returns nothing and is no configuration
document (`parse_source`).
-/

import Scaffold.Config.Document
import Scaffold.Factory
import Scaffold.Proofs.ClassName
import Scaffold.Proofs.Scan.Lexemes

namespace Scaffold
namespace Factory

open Script (Lexeme Token TokenKind isGap isWordChar)

/-! ### Lexemes -/

/-- A token right behind the one before it. -/
def joined (kind : TokenKind) (text : Text) : Lexeme := ⟨[], kind, text⟩

/-- A token behind a space. -/
def spaced (kind : TokenKind) (text : Text) : Lexeme := ⟨[' '], kind, text⟩

/-- The first token of a line, behind some spaces. -/
def onLine (indent : Nat) (kind : TokenKind) (text : Text) : Lexeme :=
  ⟨'\n' :: List.replicate indent ' ', kind, text⟩

/-- The first token behind an empty line. -/
def afterLine (text : Text) : Lexeme := ⟨['\n', '\n'], .word, text⟩

/-- The declaration of strict types. -/
def headLexemes : List Lexeme :=
  [afterLine "declare".toList, joined (.opening .round) ['('], joined .word "strict_types".toList,
    joined .symbol ['='], joined .word ['1'], joined (.closing .round) [')'],
    joined .semicolon [';']]

/-- The declaration of a namespace; nothing for the empty one. -/
def spaceLexemes (space : Text) : List Lexeme :=
  if space.isEmpty then []
  else [afterLine "namespace".toList, spaced .word space, joined .semicolon [';']]

/-- The import of the interface of containers, and the word before the name of the class. -/
def importLexemes : List Lexeme :=
  [afterLine "use".toList, spaced .word "Psr\\Container\\ContainerInterface".toList,
    joined .semicolon [';'], afterLine "class".toList]

/-- The class up to the type that it returns. -/
def signatureLexemes : List Lexeme :=
  [onLine 0 (.opening .curly) ['\x7b'], onLine 4 .word "public".toList,
    spaced .word "function".toList, spaced .word "__invoke".toList,
    joined (.opening .round) ['('], joined .word "ContainerInterface".toList,
    spaced .variableName "$container".toList, joined (.closing .round) [')'], spaced .symbol [':']]

/-- The body of the method up to the class that it builds. -/
def bodyLexemes : List Lexeme :=
  [onLine 4 (.opening .curly) ['\x7b'], onLine 8 .word "return".toList, spaced .word "new".toList]

/-- The rest of the class. -/
def endLexemes : List Lexeme :=
  [joined (.opening .round) ['('], joined (.closing .round) [')'], joined .semicolon [';'],
    onLine 4 (.closing .curly) ['\x7d'], onLine 0 (.closing .curly) ['\x7d']]

/-- The file of a factory behind its opening tag. -/
def lexemes (target name : ClassName) : List Lexeme :=
  headLexemes ++ (spaceLexemes (target.space?.getD []) ++ (importLexemes ++
    ([spaced .word name.shortName] ++ (signatureLexemes ++ ([spaced .word target.shortName] ++
      (bodyLexemes ++ ([spaced .word target.shortName] ++ endLexemes)))))))

set_option maxRecDepth 2000 in
/-- A factory file is an opening tag, the words behind it and a line break. -/
theorem source_eq (target name : ClassName) :
    source target name = "<?php".toList ++ (Lexeme.written (lexemes target name) ++ ['\n']) := by
  rw [source, Template.render, Template.factorySource, lexemes]
  simp only [Option.getD_some, Lexeme.written_append, Lexeme.written_cons, List.append_assoc]
  generalize target.space?.getD [] = space
  by_cases hspace : space.isEmpty = true
  · rw [Template.declaration, if_pos hspace, spaceLexemes, if_pos hspace]
    rfl
  · rw [Template.declaration, if_neg hspace, spaceLexemes, if_neg hspace]
    simp only [Lexeme.written_cons, List.append_assoc]
    rfl

/-- A name behind a space fits before a character that goes on with no word. -/
theorem allFit_spaced {word : Text} (h : word ≠ [] ∧ ∀ d ∈ word, isWordChar d = true) {c : Char}
    (hc : isWordChar c = false) : Lexeme.allFit (some c) [spaced .word word] = true := by
  obtain ⟨hne, hchars⟩ := h
  obtain ⟨d, more, rfl⟩ := List.exists_cons_of_ne_nil hne
  refine Bool.and_eq_true_iff.2 ⟨Lexeme.fits_word (List.forall_mem_singleton.2 rfl) hchars ?_, rfl⟩
  rw [Lexeme.written, List.flatMap_nil, List.head?_nil, Option.none_or, Option.any_some, hc]
  exact Bool.false_ne_true

/-- The words of a namespace can stand side by side. -/
theorem allFit_spaceLexemes {space : Text} (h : ∀ d ∈ space, isWordChar d = true) :
    Lexeme.allFit (some '\n') (spaceLexemes space) = true := by
  unfold spaceLexemes
  split
  · rfl
  · rename_i hne
    have hword := allFit_spaced (c := ';') ⟨by simpa using hne, h⟩ rfl
    have hkeyword : Lexeme.allFit (some ' ') [afterLine "namespace".toList] = true := by decide
    exact Lexeme.allFit_append hkeyword rfl (Lexeme.allFit_append hword rfl (by decide))

/-- A short name is made of word characters. -/
theorem shortName_chars {name : ClassName} (h : name.WellFormed) :
    name.shortName ≠ [] ∧ ∀ d ∈ name.shortName, isWordChar d = true := by
  refine ⟨fun hempty => ?_, isWordChar_of_isIdentifier h.parts.1⟩
  have hshort := h.parts.1
  rw [hempty] at hshort
  cases hshort

/-- A namespace is made of word characters. -/
theorem space_chars {name : ClassName} (h : name.WellFormed) :
    ∀ d ∈ name.space?.getD [], isWordChar d = true := by
  cases hspace : name.space? with
  | none => exact fun d hd => absurd hd List.not_mem_nil
  | some space =>
    obtain ⟨c, more, -, -, hchars⟩ := (h.parts.2 space hspace).chars
    exact hchars

/-- The lexemes of a factory fit. -/
theorem allFit_lexemes {target name : ClassName} (htarget : target.WellFormed)
    (hname : name.WellFormed) : Lexeme.allFit (some '\n') (lexemes target name) = true := by
  have hclass := shortName_chars htarget
  have hspace := space_chars htarget
  unfold lexemes
  generalize target.space?.getD [] = space at hspace
  have hlater : (Lexeme.written (spaceLexemes space ++ importLexemes)).head? = some '\n' := by
    unfold spaceLexemes
    split <;> rfl
  refine Lexeme.allFit_append (c := '\n') (by decide) ?_ <|
    Lexeme.allFit_append (c := '\n') (allFit_spaceLexemes hspace) rfl <|
    Lexeme.allFit_append (c := ' ') (by decide) rfl <|
    Lexeme.allFit_append (c := '\n') (allFit_spaced (shortName_chars hname) rfl) rfl <|
    Lexeme.allFit_append (c := ' ') (by decide) rfl <|
    Lexeme.allFit_append (c := '\n') (allFit_spaced hclass rfl) rfl <|
    Lexeme.allFit_append (c := ' ') (by decide) rfl <|
    Lexeme.allFit_append (c := '(') (allFit_spaced hclass rfl) rfl (by decide)
  rw [Lexeme.written_append, List.head?_append] at hlater ⊢
  rw [Lexeme.written_append, List.head?_append]
  exact hlater

/-- **The file of a factory is an opening tag and the tokens of its lexemes.** -/
theorem tokenize_source {target name : ClassName} (htarget : target.WellFormed)
    (hname : name.WellFormed) :
    Script.tokenize (source target name) =
      .ok (⟨.openTag, 0, "<?php".toList⟩ :: Lexeme.tokens 5 (lexemes target name)) := by
  have htag : Script.openTag? (source target name) =
      some ([], "<?php".toList, Lexeme.written (lexemes target name) ++ ['\n']) := by
    rw [source_eq]
    rfl
  have hbehind : ∀ c ∈ ['\n'], isGap c = true := List.forall_mem_singleton.2 rfl
  have htokens := Lexeme.tokensFrom_written hbehind (allFit_lexemes htarget hname) 5
  rw [Script.tokensFrom] at htokens
  obtain ⟨ps, hps, htokens⟩ := Script.map_eq_ok_iff.1 htokens
  rw [Script.tokenize, Script.scan, htag]
  simp only [List.length_nil, Nat.zero_add]
  have hlength : "<?php".toList.length = 5 := rfl
  rw [hlength, hps, ← htokens]
  rfl

end Factory
end Scaffold

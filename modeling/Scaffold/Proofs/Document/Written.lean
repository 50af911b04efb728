/-
# What is written is read back

A literal is written so that its text is one expression wherever it stands, unless a word goes on
behind it (`Literal.fragment`), and so that the expression evaluates to the literal
(`Literal.evaluate_pieces`), whatever the names of the file are. An empty array literal is read as
one (`emptyLiteral_fragment`). A class can be referred to if it has a name of identifiers
(`ClassName.WellFormed`, as `ClassName.parse` accepts them) that stands for the same class
everywhere (`Literal.Representable`).
-/

import Scaffold.Config.Document
import Scaffold.Proofs.ClassName
import Scaffold.Proofs.Literal.Spans
import Scaffold.Proofs.Scan.Around

namespace Scaffold
namespace Config

open Script (Piece Cut Names Expression Token isWordChar pieceAt Balanced)

/-- The literals that a document can hold: every string, and the classes with a name of their
own. -/
def Literal.Representable : Literal → Prop
  | .string _ => True
  | .classRef name =>
    (∃ written, ClassName.parse written = .ok ⟨name⟩) ∧ Script.isRelativeClass name = false

/-- A class that the literal refers to has a name of identifiers. -/
def Literal.WellFormed : Literal → Prop
  | .string _ => True
  | .classRef name => ClassName.WellFormed ⟨name⟩

/-- The literal refers to a class that depends on where the reference stands. -/
def Literal.IsRelative : Literal → Prop
  | .string _ => False
  | .classRef name => Script.isRelativeClass name = true

/-- A literal that can be represented is well formed. -/
theorem Literal.Representable.wellFormed {literal : Literal} (h : literal.Representable) :
    literal.WellFormed := by
  cases literal with
  | string => trivial
  | classRef name =>
    obtain ⟨⟨written, hparse⟩, -⟩ := h
    exact ClassName.wellFormed_of_parse hparse

/-- A literal that can be represented is no relative class. -/
theorem Literal.Representable.not_isRelative {literal : Literal} (h : literal.Representable) :
    ¬literal.IsRelative := by
  cases literal with
  | string => exact not_false
  | classRef name => exact Bool.eq_false_iff.1 h.2

/-- Before a text that goes on with no word, `s` is cut into `ps`, an expression from its first
character to its last. -/
structure Fragment (s : Text) (ps : List Piece) : Prop where
  cut : ∀ v : Text, ¬v.head?.any isWordChar → Cut v s ps
  balanced : ∀ offset, Balanced (Token.ofPieces offset ps)
  bounds : ∀ (e : Expression) (offset : Nat), e.tokens = Token.ofPieces offset ps →
    e.start = offset ∧ e.stop = offset + s.length

/-- An expression that is a fragment is written as that fragment. -/
theorem Fragment.written_eq {s : Text} {ps : List Piece} (h : Fragment s ps) {e : Expression}
    {a b : Text} (he : e.tokens = Token.ofPieces a.length ps) : e.written (a ++ (s ++ b)) = s := by
  obtain ⟨hstart, hstop⟩ := h.bounds e _ he
  unfold Expression.written Text.slice
  rw [hstart, hstop, List.drop_left, Nat.add_sub_cancel_left, List.take_left]

/-! ### Strings -/

/-- Escaping goes character by character. -/
theorem escape_cons (c : Char) (value : Text) :
    Literal.escape (c :: value) =
      if c = '\\' ∨ c = '\x27' then '\\' :: c :: Literal.escape value
      else c :: Literal.escape value := by
  rw [Literal.escape, List.flatMap_cons]
  split <;> rfl

/-- An escaped text ends at the apostrophe behind it. -/
theorem quotedLength_escape (value v : Text) :
    Script.quotedLength '\x27' (Literal.escape value ++ '\x27' :: v) =
      some ((Literal.escape value).length + 1) := by
  induction value with
  | nil =>
    cases v with
    | nil => rfl
    | cons d v => rfl
  | cons c value ih =>
    rw [escape_cons]
    split
    · rw [List.cons_append, List.cons_append, Script.quotedLength, if_pos rfl, ih]
      rfl
    · rename_i hc
      rw [not_or] at hc
      cases he : Literal.escape value ++ '\x27' :: v with
      | nil => simp at he
      | cons d rest =>
        rw [List.cons_append, he, Script.quotedLength, if_neg hc.1, if_neg hc.2, ← he, ih]
        rfl

/-- An escaped text is decoded to the text. -/
theorem decode_escape (value : Text) :
    Script.decodeSingleQuoted (Literal.escape value) = value := by
  induction value with
  | nil => rfl
  | cons c value ih =>
    rw [escape_cons]
    split
    · rename_i hc
      rw [Script.decodeSingleQuoted, if_pos ⟨rfl, hc⟩, ih]
    · rename_i hc
      rw [not_or] at hc
      cases he : Literal.escape value with
      | nil =>
        rw [he] at ih
        rw [Script.decodeSingleQuoted, ← ih]
        rfl
      | cons d rest =>
        rw [Script.decodeSingleQuoted, if_neg fun h => hc.1 h.1, ← he, ih]

/-- A single token is an expression. -/
theorem fragment_single {s : Text} {kind : Script.TokenKind}
    (hcut : ∀ v : Text, ¬v.head?.any isWordChar → Cut v s [⟨.token kind, s⟩])
    (hk : Script.openStep [] kind = some []) : Fragment s [⟨.token kind, s⟩] where
  cut := hcut
  balanced offset := by
    refine ⟨by simp [Token.ofPieces], ?_⟩
    simp [Token.ofPieces, Script.openAfter, hk]
  bounds e offset he := by
    obtain ⟨tokens, hne⟩ := e
    subst he
    exact ⟨rfl, rfl⟩

/-- A written string is one token. -/
theorem string_fragment (value : Text) :
    Fragment ('\x27' :: Literal.escape value ++ ['\x27'])
      [⟨.token .string, '\x27' :: Literal.escape value ++ ['\x27']⟩] := by
  refine fragment_single (fun v _ => ?_) rfl
  have hstep : pieceAt '\x27' ((Literal.escape value ++ ['\x27']) ++ v) =
      .ok (.token .string, (Literal.escape value ++ ['\x27']).length) := by
    rw [List.append_assoc, List.singleton_append, List.length_append]
    unfold pieceAt
    rw [if_neg (by decide), if_neg (by simp [Script.startsComment]),
      if_pos (show Script.isQuote '\x27' = true from rfl),
      quotedLength_escape]
    rfl
  exact Cut.single hstep (by simp)

/-! ### Class names -/

/-- A run of word characters is one token. -/
theorem cut_word {c : Char} {more : Text} (h : ∀ d ∈ c :: more, isWordChar d = true) {v : Text}
    (hv : ¬v.head?.any isWordChar) : Cut v (c :: more) [⟨.token .word, c :: more⟩] := by
  obtain ⟨hc, hmore⟩ := List.forall_mem_cons.1 h
  refine Cut.single ?_ (by simp)
  rw [Script.pieceAt_of_isWordChar hc, Script.takeWhile_of_forall hmore hv]

/-- The pieces of a reference to a class. -/
def classPieces (written : Text) : List Piece :=
  [⟨.token .word, written⟩, ⟨.token .doubleColon, [':', ':']⟩, ⟨.token .word, "class".toList⟩]

/-- A reference to a class is a fragment of two words. -/
theorem class_fragment {c : Char} {more : Text} (h : ∀ d ∈ c :: more, isWordChar d = true) :
    Fragment (c :: more ++ "::class".toList) (classPieces (c :: more)) where
  cut v hv := by
    have hclass : Cut v "class".toList [⟨.token .word, "class".toList⟩] :=
      cut_word (List.all_eq_true.1 rfl) hv
    have hinside : Script.TokenKind.doubleColon ≠ .closeTag := by decide
    have hcolons := (Cut.spelling rfl hinside _).append hclass
    exact (cut_word h (by simp [isWordChar])).append hcolons
  balanced offset := ⟨by simp [classPieces, Token.ofPieces], rfl⟩
  bounds e offset he := by
    obtain ⟨tokens, hne⟩ := e
    subst he
    refine ⟨rfl, ?_⟩
    simp only [Expression.stop, Token.ofPieces, classPieces, List.getLast_cons_cons,
      List.getLast_singleton, Token.stop, List.length_append]
    rfl

/-- A name that starts with a separator is no relative class. -/
theorem not_isRelativeClass_separator (name : Text) :
    Script.isRelativeClass ('\\' :: name) = false := by
  simp [Script.isRelativeClass, Text.equalsIgnoringCase]

/-- A reference to a class evaluates to the name that it is resolved to. -/
theorem evaluate_class {e : Expression} {offset : Nat} {written : Text}
    (he : e.tokens = Token.ofPieces offset (classPieces written))
    (hr : Script.isRelativeClass written = false) (source : Text) (names : Names) :
    e.evaluate source names = .known (names.resolve written) := by
  obtain ⟨tokens, hne⟩ := e
  subst he
  unfold Expression.evaluate
  simp only [Token.ofPieces, classPieces]
  exact if_pos ⟨trivial, trivial, rfl, by rw [hr]; exact Bool.false_ne_true⟩

/-- A string that was escaped evaluates to the text. -/
theorem evaluate_string {e : Expression} {offset : Nat} {value : Text}
    (he : e.tokens = Token.ofPieces offset
      [⟨.token .string, '\x27' :: Literal.escape value ++ ['\x27']⟩])
    (source : Text) (names : Names) : e.evaluate source names = .known value := by
  obtain ⟨tokens, hne⟩ := e
  subst he
  have hunquote : Script.unquote? ('\x27' :: Literal.escape value ++ ['\x27']) = some value := by
    simp [Script.unquote?, decode_escape]
  unfold Expression.evaluate
  simp only [Token.ofPieces, if_true, hunquote]

namespace Literal

/-- How a class is named in a reference to it. -/
def spelled (names : Names) (name : Text) : Text :=
  if names.resolve name = name then name else '\\' :: name

/-- The pieces that a literal is written with. -/
def pieces (names : Names) : Literal → List Piece
  | .string value => [⟨.token .string, '\x27' :: escape value ++ ['\x27']⟩]
  | .classRef name => classPieces (spelled names name)

/-- A class is spelled with word characters. -/
theorem spelled_chars {name : Text} (h : ClassName.WellFormed ⟨name⟩) (names : Names) :
    ∃ c more, spelled names name = c :: more ∧ ∀ d ∈ c :: more, isWordChar d = true := by
  obtain ⟨c, more, hname, -, hchars⟩ := h.chars
  have hname : name = c :: more := hname
  rw [spelled]
  split
  · exact ⟨c, more, hname, hname ▸ hchars⟩
  · exact ⟨'\\', name, rfl, List.forall_mem_cons.2 ⟨rfl, hchars⟩⟩

/-- **A written literal is one expression.** -/
theorem fragment {literal : Literal} (h : literal.WellFormed) (names : Names) :
    Fragment (literal.toSource names) (literal.pieces names) := by
  cases literal with
  | string value => exact string_fragment value
  | classRef name =>
    obtain ⟨c, more, hspelled, hchars⟩ := spelled_chars h names
    have hsource : toSource names (.classRef name) = spelled names name ++ "::class".toList := rfl
    rw [hsource, pieces, hspelled]
    exact class_fragment hchars

/-- **A written literal evaluates to itself.** -/
theorem evaluate_pieces {literal : Literal} (h : ¬literal.IsRelative) {names : Names}
    {e : Expression} {offset : Nat} (he : e.tokens = Token.ofPieces offset (literal.pieces names))
    (source : Text) : e.evaluate source names = .known literal.evaluated := by
  cases literal with
  | string value => exact evaluate_string he source names
  | classRef name =>
    have hrelative : Script.isRelativeClass name = false := Bool.eq_false_iff.2 h
    rw [pieces, spelled] at he
    split at he
    · rename_i hresolve
      rw [evaluate_class he hrelative, hresolve]
      rfl
    · rw [evaluate_class he (not_isRelativeClass_separator name)]
      rfl

/-- A literal is written as a fragment that evaluates to what the literal stands for. -/
theorem exists_fragment {literal : Literal} (h : literal.Representable) (names : Names) :
    ∃ ps, Fragment (literal.toSource names) ps ∧
      ∀ (e : Expression) (offset : Nat) (source : Text), e.tokens = Token.ofPieces offset ps →
        e.evaluate source names = .known literal.evaluated :=
  ⟨_, fragment h.wellFormed names, fun _ _ source he => evaluate_pieces h.not_isRelative he source⟩

end Literal

/-- **An empty array literal is read as one.** -/
theorem emptyLiteral_fragment (style : Script.ArrayStyle) :
    ∃ ps, Fragment style.emptyLiteral ps ∧ ∀ offset, ∃ literal,
      Script.ArrayLiteral.read? (Token.ofPieces offset ps) = .ok (some (literal, [])) ∧
        literal.items = [] ∧ literal.style = style := by
  cases style with
  | short =>
    refine ⟨[⟨.token (.opening .square), ['[']⟩, ⟨.token (.closing .square), [']']⟩], ?_,
      fun offset => ⟨_, rfl, rfl, rfl⟩⟩
    refine ⟨fun v _ => ?_, fun offset => ⟨by simp [Token.ofPieces], rfl⟩, ?_⟩
    · have hopening : Script.TokenKind.opening .square ≠ .closeTag := by decide
      have hclosing : Script.TokenKind.closing .square ≠ .closeTag := by decide
      exact (Cut.spelling rfl hopening _).append (Cut.spelling rfl hclosing v)
    · rintro ⟨tokens, hne⟩ offset rfl
      exact ⟨rfl, rfl⟩
  | long =>
    refine ⟨[⟨.token .word, "array".toList⟩, ⟨.token (.opening .round), ['(']⟩,
      ⟨.token (.closing .round), [')']⟩], ?_, fun offset => ⟨_, rfl, rfl, rfl⟩⟩
    refine ⟨fun v _ => ?_, fun offset => ⟨by simp [Token.ofPieces], rfl⟩, ?_⟩
    · have hword : Cut ((['('] ++ [')']) ++ v) "array".toList [⟨.token .word, "array".toList⟩] :=
        cut_word (List.all_eq_true.1 rfl) (by simp [isWordChar])
      have hopening : Script.TokenKind.opening .round ≠ .closeTag := by decide
      have hclosing : Script.TokenKind.closing .round ≠ .closeTag := by decide
      exact hword.append ((Cut.spelling rfl hopening _).append (Cut.spelling rfl hclosing v))
    · rintro ⟨tokens, hne⟩ offset rfl
      exact ⟨rfl, rfl⟩

end Config
end Scaffold

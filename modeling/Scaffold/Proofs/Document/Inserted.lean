/-
# What an insertion does to a text

An item is put into an array literal of a document. The tokens of the text are those of before with
the item and one comma among them, the comments are those of before, and nothing but white space is
taken away (`insertItem_exact`), whichever of the places in `Scaffold.Config.Insertion` the item
takes. The places are found by line breaks and the ends of comments, not by tokens; the lemmas on
gaps say why none of them stands in a comment.
-/

import Scaffold.Proofs.Document.Append
import Scaffold.Proofs.Document.RoundTrip

namespace Scaffold
namespace Script

/-! ### Texts without an opening tag -/

/-- The first character of its kind in a text is the first one of two ways to tell it. -/
theorem eq_of_append_cons_eq {x y u w : Text} {c d : Char} (h : x ++ c :: y = u ++ d :: w)
    (hd : d ∉ x) (hc : c ∉ u) : c = d := by
  rcases List.append_eq_append_iff.1 h with ⟨v, rfl, hv⟩ | ⟨v, rfl, hv⟩
  · cases v with
    | nil => exact (List.cons.inj hv).1
    | cons e v =>
      obtain ⟨rfl, -⟩ := List.cons.inj hv
      exact absurd (List.mem_append_right _ List.mem_cons_self) hc
  · cases v with
    | nil => exact (List.cons.inj hv).1.symm
    | cons e v =>
      obtain ⟨rfl, -⟩ := List.cons.inj hv
      exact absurd (List.mem_append_right _ List.mem_cons_self) hd

/-- A word with a colon behind it starts with no opening tag. -/
theorem openTag?_of_word {word : Text} (h : ∀ c ∈ word, isWordChar c = true) (rest : Text) :
    openTag? (word ++ ':' :: rest) = none := by
  cases htag : openTag? (word ++ ':' :: rest) with
  | none => rfl
  | some found =>
    exfalso
    obtain ⟨before, tag, later⟩ := found
    have hsource := append_of_openTag? htag
    obtain ⟨mark, line, blanks, rfl, hmark, hline, hblanks⟩ := preamble_of_openTag? htag
    have hnot : ∀ c, isWordChar c = false → c ∉ word := by
      intro c hc hmem
      rw [h c hmem] at hc
      cases hc
    have hcolon : ':' ∉ mark := by rcases hmark with rfl | rfl <;> decide
    rcases hline with rfl | ⟨name, rfl, -⟩
    · obtain ⟨more, rfl⟩ := exists_eq_cons_of_openTag? htag
      have hblank : ':' ∉ mark ++ blanks := by
        intro hmem
        rcases List.mem_append.1 hmem with hmem | hmem
        · exact hcolon hmem
        · exact absurd (hblanks _ hmem) (by decide)
      exact absurd (eq_of_append_cons_eq hsource hblank (hnot '<' rfl)) (by decide)
    · simp only [List.append_assoc, List.cons_append] at hsource
      exact absurd (eq_of_append_cons_eq hsource hcolon (hnot '#' rfl)) (by decide)

end Script
namespace Config

open Script (ArrayLiteral Commented Cut Names Piece SameComments Spans Token comments commentsOf
  isWordChar pieces tokenize)

/-! ### The item -/

/-- How an item that binds a key to a value is written in a file with the given names. -/
def itemSource (names : Names) (key value : Literal) : Text :=
  key.toSource names ++ " => ".toList ++ value.toSource names

section
variable {key value : Literal} (hk : key.WellFormed) (hv : value.WellFormed) (names : Names)
include hk hv

/-- Scanned on its own, an item has the tokens of its pieces. -/
theorem tokenize_itemSource : tokenize (itemSource names key value) =
    .ok (Token.ofPieces 0 (itemPieces (key.pieces names) (value.pieces names))) := by
  refine Script.tokenize_of_cut ?_
    (cut_item (Literal.fragment hk names) (Literal.fragment hv names) (by simp))
  cases key with
  | string text => exact Script.openTag?_of_apostrophe _
  | classRef name =>
    obtain ⟨c, more, hspelled, hchars⟩ := Literal.spelled_chars hk names
    have hsource : itemSource names (.classRef name) value = Literal.spelled names name ++
        ':' :: (":class => ".toList ++ value.toSource names) := by
      have hclass : Literal.toSource names (.classRef name) =
        Literal.spelled names name ++ "::class".toList := rfl
      rw [itemSource, hclass, List.append_assoc, List.append_assoc]
      rfl
    rw [hsource]
    exact Script.openTag?_of_word (hspelled ▸ hchars) _

omit hk hv in
/-- No comment is part of an item. -/
theorem commentsOf_itemPieces (key value : Literal) :
    commentsOf (itemPieces (key.pieces names) (value.pieces names)) = [] := by
  have hliteral : ∀ literal : Literal, commentsOf (literal.pieces names) = [] := by
    intro literal
    cases literal <;> rfl
  have hsep : ∀ ps, commentsOf (⟨.blank, [' ']⟩ :: ⟨.token .doubleArrow, ['=', '>']⟩ ::
      ⟨.blank, [' ']⟩ :: ps) = commentsOf ps := fun _ => rfl
  rw [itemPieces, Script.commentsOf_append, hsep, hliteral, hliteral, List.append_nil]

end

/-- There is no comment in a comma. -/
theorem commentsOf_commaPieces (text : Text) : commentsOf (commaPieces text) = [] := by
  refine Script.commentsOf_eq_nil fun p hp => ?_
  obtain ⟨c, -, rfl⟩ := List.mem_map.1 hp
  exact nofun

/-! ### The comments -/

/-- The comments of a text in which an item has been put between two gaps. -/
theorem pieces_planned {sep tail g₁ g₂ z item : Text} {ps zs : List Piece} {cs₁ cs₂ : List Text}
    (hsep : sep = [] ∨ sep = [',']) (htail : tail = [] ∨ tail = [',']) (h₁ : ∀ w, Commented w g₁ cs₁)
    (h₂ : Commented z g₂ cs₂) (hitem : Cut (tail ++ (g₂ ++ z)) item ps) (hps : commentsOf ps = [])
    {origin : Nat} (hz : pieces origin z = .ok zs) (offset : Nat) : ∃ found,
      pieces offset (sep ++ (g₁ ++ (item ++ (tail ++ (g₂ ++ z))))) = .ok found ∧
      commentsOf found = (cs₁ ++ cs₂) ++ commentsOf zs := by
  obtain ⟨gs₁, hgs₁, hp₁⟩ := (h₁ (item ++ (tail ++ (g₂ ++ z)))).pieces_append (offset + sep.length)
  rw [(cut_comma hsep _).pieces_append, hp₁, hitem.pieces_append, (cut_comma htail _).pieces_append]
  obtain ⟨gs₂, hgs₂, hp₂⟩ :=
    h₂.pieces_append (offset + sep.length + g₁.length + item.length + tail.length)
  rw [hp₂, Script.pieces_offset hz]
  refine ⟨_, rfl, ?_⟩
  simp only [Script.commentsOf_append, commentsOf_commaPieces, hps, hgs₁, hgs₂, List.nil_append,
    List.append_assoc]

/-- **The comments around an item that is put last.** -/
theorem comments_item {source : Text} {A op I B : List Token} {c r : Token} {m : ArrayLiteral}
    (h : tokenize source = .ok (A ++ (op ++ (I ++ c :: B)))) (hm : Spans op I c m)
    (hr : r ∈ A) (hret : r.isWord "return".toList = true) {item : Text} {ps : List Piece}
    (hitem : ∀ v : Text, ¬v.head?.any isWordChar → Cut v item ps) (hps : commentsOf ps = []) :
    KeepsText source (insertItem source m item) ∧ ∃ cs cs', comments source = .ok cs ∧
      comments (Edit.applyAll (insertItem source m item) source) = .ok cs' ∧
      SameComments cs cs' := by
  obtain ⟨us, t, x, g, y, -, hlast, hn⟩ := exists_neighbours h hm hr hret
  obtain ⟨sep, tail, hcommas, hfitted, hexchange⟩ := insertItem_fitted hn hm hlast item
  refine ⟨hfitted.keeps, ?_⟩
  obtain ⟨g₁, g₂, hresult, cs, cs₁, cs₂, hcs, hcs₁, hcs₂, hsame⟩ := hfitted.parted
  obtain ⟨found, hfound⟩ := hn.scanned
  obtain ⟨zs, hzs, -⟩ := Script.map_eq_ok_iff.1 hn.rest
  have hcut : Cut (tail ++ (g₂ ++ (c.text ++ y))) item ps :=
    hitem _ (hn.not_word hcommas.tail_cases hcs₂.skipped (Or.inr ⟨_, hm.closing⟩))
  obtain ⟨new, hnew, hcomments⟩ :=
    pieces_planned hcommas.sep_cases hcommas.tail_cases hcs₁ hcs₂ hcut hps hzs t.stop
  obtain ⟨gs, hgs, hold⟩ := hcs.pieces_append t.stop
  rw [Script.pieces_offset hzs] at hold
  have hsource : Script.scan source = .ok (found ++ (gs ++ zs)) := by
    rw [hn.source_eq, hfound _ (Or.inl rfl), hold]
    rfl
  have hresult' : Script.scan (Edit.applyAll (insertItem source m item) source) =
      .ok (found ++ new) := by
    rw [hresult, List.append_assoc x, hfound _ (Or.inr (hexchange _)), hnew]
    rfl
  refine ⟨_, _, by rw [comments, hsource]; rfl, by rw [comments, hresult']; rfl, ?_⟩
  rw [Script.commentsOf_append, Script.commentsOf_append, Script.commentsOf_append, hgs, hcomments]
  exact (SameComments.refl _).append (hsame.append (.refl _))

/-! ### The tokens -/

/-- The new tokens of a literal that gets an item: a comma behind the item if the literal is empty
or ends with a comma, and before it otherwise. -/
def itemWithComma (m : ArrayLiteral) (item : List Piece) : List Piece :=
  if m.items = [] ∨ m.trailingComma.isSome then item ++ [⟨.token .comma, [',']⟩]
  else ⟨.token .comma, [',']⟩ :: item

/-- Tokens keep their pieces when they are moved. -/
theorem map_piece_move (origin target : Nat) (ts : List Token) :
    (ts.map (Token.move origin target)).map Token.piece = ts.map Token.piece := by
  rw [List.map_map]
  rfl

/-- The pieces of tokens do not depend on where the tokens start. -/
theorem map_piece_ofPieces (offset offset' : Nat) (ps : List Piece) :
    (Token.ofPieces offset ps).map Token.piece = (Token.ofPieces offset' ps).map Token.piece := by
  rw [← Token.map_move_ofPieces offset offset', map_piece_move]

/-- The commas of a new item are as its literal asks for. -/
theorem itemTokens_pieces {m : ArrayLiteral} {sep tail : Text} (h : ItemCommas m.items sep tail)
    (offset : Nat) (ps : List Piece) (place length : Nat) :
    (itemTokens sep offset ps place tail length).map Token.piece =
      itemWithComma m ((Token.ofPieces 0 ps).map Token.piece) := by
  rw [itemTokens, List.map_append, List.map_append, map_piece_ofPieces place 0, itemWithComma,
    ArrayLiteral.trailingComma]
  cases h with
  | after closed =>
    rw [if_pos]
    · rfl
    · cases hlast : m.items.getLast? with
      | none => exact Or.inl (List.getLast?_eq_none_iff.1 hlast)
      | some last => exact Or.inr (closed last hlast)
  | before item bare =>
    rw [if_neg]
    · exact congrArg _ (List.append_nil _)
    · rw [item, Option.bind_some, bare]
      rintro (hnil | hsome)
      · rw [hnil] at item
        cases item
      · cases hsome

namespace Document

/-- **An insertion adds an item and nothing else.**  The literal `m` of a document is reached by a
path, and an item `key => value` is put into it. The tokens of the new text are those of before up
to the closing bracket `c` of `m`, the new ones, and those of before from `c` on, of the same kinds
and texts. The comments are the same, but for carriage returns that end them, and the edits take
nothing but white space away. -/
theorem insertItem_exact {source : Text} {document : Document} (hparse : parse source = .ok document)
    {path : SectionPath} {m : ArrayLiteral} (hfound : document.locate path = .ok (.found m))
    {key value : Literal} (hk : key.Representable) (hv : value.Representable) (names : Names) :
    let item := itemSource names key value
    let result := Edit.applyAll (insertItem source m item) source
    (∃ before c behind added new, tokenize source = .ok (before ++ c :: behind) ∧
      c.start = m.close ∧ tokenize item = .ok added ∧ tokenize result = .ok new ∧
      new.map Token.piece = before.map Token.piece ++
        (itemWithComma m (added.map Token.piece) ++ (c :: behind).map Token.piece)) ∧
    (∃ cs cs', comments source = .ok cs ∧ comments result = .ok cs' ∧ SameComments cs cs') ∧
    KeepsText source (insertItem source m item) := by
  intro item result
  obtain ⟨rfl, -, hread⟩ := read_eq_ok_iff.1 hparse
  obtain ⟨A, op, I, c, B, htokens, hm, ⟨r, hrA, hr⟩, -⟩ :=
    exists_edited hread (walk_eq_found_iff.1 hfound)
  have hcut : ∀ v : Text, ¬v.head?.any isWordChar →
      Cut v item (itemPieces (key.pieces names) (value.pieces names)) := fun v hw =>
    cut_item (Literal.fragment hk.wellFormed names) (Literal.fragment hv.wellFormed names) hw
  obtain ⟨hkeeps, hcomments⟩ :=
    comments_item htokens hm hrA hr hcut (commentsOf_itemPieces names key value)
  obtain ⟨sep, tail, a, b, offset, target, hcommas, hresult, hnew, -⟩ :=
    tokenize_item htokens hm hrA hr hcut
  refine ⟨⟨A ++ (op ++ I), c, B, _, _, ?_, hm.close_eq,
    tokenize_itemSource hk.wellFormed hv.wellFormed names, hresult ▸ hnew, ?_⟩, hcomments, hkeeps⟩
  · rw [htokens, List.append_assoc, List.append_assoc]
  · simp only [List.map_append, map_piece_move, itemTokens_pieces hcommas, List.append_assoc]

/-- The line with the last item ends with a comment. The comma goes before the comment, and the new
line is broken as the first one is. -/
theorem insertItem_exact_beside_comment :
    let source := "<?php\r\nreturn [\n  1 // a\n];\n".toList
    let result := "<?php\r\nreturn [\n  1, // a\r\n  K::class => 'v'\n];\n".toList
    ∃ document, parse source = .ok document ∧
      Edit.applyAll (insertItem source document.file.root "K::class => 'v'".toList) source = result ∧
      comments source = .ok ["// a".toList] ∧ comments result = .ok ["// a\r".toList] ∧
      KeepsText source (insertItem source document.file.root "K::class => 'v'".toList) := by
  intro source result
  have hparse : parse source = .ok ((parse source).toOption.getD empty) :=
    Script.eq_ok_of_toOption (by decide +kernel)
  have hk : Literal.Representable (.classRef "K".toList) :=
    ⟨⟨"K".toList, Script.eq_ok_of_toOption (by decide +kernel)⟩, by decide +kernel⟩
  have hv : Literal.Representable (.string "v".toList) := trivial
  have hfound : ∀ document : Document,
      document.locate .root = .ok (.found document.file.root) := fun _ => rfl
  obtain ⟨-, -, hkeeps⟩ := insertItem_exact hparse (hfound _) hk hv .global
  exact ⟨_, hparse, by decide +kernel, Script.eq_ok_of_toOption (by decide +kernel),
    Script.eq_ok_of_toOption (by decide +kernel), hkeeps⟩

end Document
end Config
end Scaffold

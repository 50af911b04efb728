/-
# Labels behind three angle signs

A string that starts like a name is not taken as it is behind three angle signs and blanks: there
it is the label of a heredoc. A text that ends with angle signs and blanks is cut there character
by character (`Cut.concat`), so the first of the three signs would see the label. Main statement:
the pieces of a source text are the same with another text inside one of them if and only if the
enclosure admits that text (`Enclosure.scan_around_iff`).
-/

import Scaffold.Proofs.Scan.Contents

namespace Scaffold
namespace Script

/-- An angle sign, a space or a tab. -/
def IsAngleOrBlank (c : Char) : Prop := c = '<' ∨ c = ' ' ∨ c = '\t'

/-- Indentation is made of blanks. -/
theorem isAngleOrBlank_of_isIndent {c : Char} (h : Text.isIndent c = true) : IsAngleOrBlank c := by
  rw [Text.isIndent, Bool.or_eq_true, beq_iff_eq, beq_iff_eq] at h
  exact Or.inr h

/-- A text that ends with angle signs has blanks behind them. -/
theorem AfterAngles.exists_blanks {text : Text} (h : AfterAngles text) :
    ∃ a blanks, text = a ++ '<' :: '<' :: '<' :: blanks ∧
      ∀ c ∈ blanks, Text.isIndent c = true := by
  obtain ⟨a, ha⟩ := h
  refine ⟨a, (text.reverse.takeWhile Text.isIndent).reverse, ?_, fun c hc =>
    List.mem_takeWhile_imp (List.mem_reverse.1 hc)⟩
  have hsplit : Text.dropEndWhile Text.isIndent text ++
      (text.reverse.takeWhile Text.isIndent).reverse = text := by
    rw [Text.dropEndWhile, ← List.reverse_append, List.takeWhile_append_dropWhile,
      List.reverse_reverse]
  rw [← ha, List.append_assoc] at hsplit
  exact hsplit.symm

/-- A line ends before a newline or a tag alone. -/
theorem not_endsLine_cons {c : Char} (hnewline : c ≠ '\n') (htag : c ≠ '?') (v : Text) :
    ¬EndsLine (c :: v) := by
  rintro (h | ⟨w, h⟩ | ⟨w, h⟩)
  · cases h
  · exact hnewline (List.cons.inj h).1.symm
  · exact htag (List.cons.inj h).1.symm

section
variable {b c : Char} {more v : Text}

/-- No line ends before an angle sign or a blank. -/
theorem IsAngleOrBlank.not_endsLine (hb : IsAngleOrBlank b) (v : Text) : ¬EndsLine (b :: v) := by
  refine not_endsLine_cons ?_ ?_ v <;> rcases hb with rfl | rfl | rfl <;> decide

/-- A comment that ends with an angle sign or a blank ends its line. -/
theorem endsLine_of_comment (h : pieceAt c (more ++ v) = .ok (.comment, more.length))
    (hlast : (c :: more).getLast? = some b) (hb : IsAngleOrBlank b) : EndsLine v := by
  obtain ⟨e, body, he⟩ : ∃ (e : Enclosure) (body : Text),
      (⟨.comment, c :: more⟩ : Piece) = e.around body := by
    cases hshape : pieceShape_of_pieceAt h with
    | comment starts length =>
      have := Enclosure.exists_around_comment starts length
      rwa [List.take_left] at this
  have hkind : e.kind = .comment := (congrArg Piece.kind he).symm
  have htext : (e.around body).text = c :: more := (congrArg Piece.text he).symm
  cases e with
  | quoted => cases hkind
  | block =>
    rw [← htext, Enclosure.around, Enclosure.closer, ← List.append_assoc,
      List.getLast?_append] at hlast
    obtain rfl : '/' = b := Option.some.inj hlast
    rcases hb with hb | hb | hb <;> cases hb
  | slashes | hash => exact Enclosure.endsBefore_of_pieceAt htext (hkind ▸ h)

/-- A piece that ends with an angle sign or a blank is nothing more. -/
theorem eq_nil_of_getLast? {kind : PieceKind}
    (h : pieceAt c (more ++ v) = .ok (kind, more.length))
    (hlast : (c :: more).getLast? = some b) (hb : IsAngleOrBlank b) (hv : ¬EndsLine v) :
    more = [] := by
  cases kind with
  | comment => exact absurd (endsLine_of_comment h hlast hb) hv
  | token kind =>
    have htake : (more ++ v).take more.length = more := List.take_left
    rw [← htake] at hlast
    rcases pieceAt_getLast? h hlast with hn | hother
    · exact List.length_eq_zero_iff.1 hn
    · rcases hb with rfl | rfl | rfl <;> exact absurd hother (by decide)
  | blank =>
    generalize hn : more.length = n at h
    cases pieceShape_of_pieceAt h
    exact List.length_eq_zero_iff.1 hn
  | preamble | outside => cases pieceShape_of_pieceAt h

end

namespace Cut

variable {a u v : Text} {b : Char} {ps : List Piece}

/-- The last of these characters is a piece of its own. -/
theorem concat (h : Cut v (a ++ [b]) ps) (hb : IsAngleOrBlank b) (hv : ¬EndsLine v) :
    ∃ ps' kind, Cut (b :: v) a ps' ∧ pieceAt b v = .ok (kind, 0) := by
  have hne : ps ≠ [] := by
    rintro rfl
    exact absurd h.textOf_eq (by simp)
  obtain ⟨ps, p, rfl⟩ := (List.eq_nil_or_concat ps).resolve_left hne
  rw [List.concat_eq_append] at h
  obtain ⟨a', b', hsplit, hps, hp⟩ := h.split
  cases hp with
  | @cons c more u kind _ step inside later =>
    cases later
    rw [List.append_nil] at hsplit hps
    have hlast : (c :: more).getLast? = some b := by
      have hboth := congrArg List.getLast? hsplit
      rw [List.getLast?_concat, List.getLast?_append_of_ne_nil _ (List.cons_ne_nil c more)] at hboth
      exact hboth.symm
    obtain rfl := eq_nil_of_getLast? step hlast hb hv
    obtain ⟨rfl, hbc⟩ := List.append_inj' hsplit rfl
    obtain rfl : b = c := List.singleton_inj.1 hbc
    exact ⟨ps, kind, hps, step⟩

/-- What stands before some of these characters is cut without them. -/
theorem strip {t : Text} (ht : ∀ c ∈ t, IsAngleOrBlank c) (hv : ¬EndsLine v)
    (h : Cut v (a ++ t) ps) : ∃ ps', Cut (t ++ v) a ps' := by
  induction t using List.reverseRecOn generalizing v ps with
  | nil =>
    rw [List.append_nil] at h
    exact ⟨ps, h⟩
  | append_singleton t b ih =>
    have hb : IsAngleOrBlank b := ht b (by simp)
    rw [← List.append_assoc] at h
    obtain ⟨ps', -, hps', -⟩ := h.concat hb hv
    rw [List.append_assoc]
    exact ih (fun c hc => ht c (List.mem_append_left _ hc)) (hb.not_endsLine v) hps'

/-- **A cut before the label of a heredoc does not end with angle signs and blanks.** -/
theorem not_afterAngles (h : Cut ('\x27' :: v) u ps) (hname : v.head?.any isNameStart = true) :
    ¬AfterAngles u := by
  intro hangles
  obtain ⟨a, blanks, rfl, hblanks⟩ := hangles.exists_blanks
  have hplain : ∀ c ∈ '<' :: '<' :: blanks, IsAngleOrBlank c :=
    List.forall_mem_cons.2 ⟨Or.inl rfl, List.forall_mem_cons.2
      ⟨Or.inl rfl, fun c hc => isAngleOrBlank_of_isIndent (hblanks c hc)⟩⟩
  rw [List.append_cons] at h
  obtain ⟨ps', hps'⟩ := h.strip hplain (not_endsLine_cons (by decide) (by decide) v)
  obtain ⟨-, kind, -, hstep⟩ := hps'.concat (Or.inl rfl)
    (IsAngleOrBlank.not_endsLine (Or.inl rfl) _)
  -- the first of the three signs sees the label
  have hopens : opensHeredoc '<' ('<' :: '<' :: blanks ++ '\x27' :: v) := by
    refine ⟨rfl, rfl, ?_⟩
    have hstart : labelStart (blanks ++ '\x27' :: v) = v := by
      rw [labelStart, List.dropWhile_append_of_pos hblanks]
      rfl
    show (labelStart (blanks ++ '\x27' :: v)).head?.any isNameStart = true
    rw [hstart]
    exact hname
  generalize hn : 0 = n at hstep
  cases pieceShape_of_pieceAt hstep with
  | symbol gap comment quote heredoc => exact heredoc hopens
  | heredoc => omega
  | blank gap => cases gap
  | comment starts => cases starts
  | quoted quote => cases quote
  | pair => cases hn
  | punctuation single => cases single
  | variableName dollar => cases dollar
  | word char => cases char

end Cut

/-! ### The exception is the only one -/

/-- Angle signs and blanks behind another character stand behind it. -/
theorem AfterAngles.of_append {x u : Text} {d : Char} (h : AfterAngles (x ++ u))
    (hx : x.getLast? = some d) (hd : ¬IsAngleOrBlank d) : AfterAngles u := by
  obtain ⟨a, blanks, hsplit, hblanks⟩ := h.exists_blanks
  have hangles := afterAngles_of_forall hblanks
  rcases List.append_eq_append_iff.1 hsplit with ⟨a', rfl, rfl⟩ | ⟨c, rfl, hc⟩
  · exact hangles.append a'
  · cases c with
    | nil =>
      rw [List.nil_append] at hc
      rwa [← hc]
    | cons e c =>
      -- the other character would be one of the angle signs and blanks
      exfalso
      rw [List.getLast?_append_of_ne_nil _ (List.cons_ne_nil e c)] at hx
      have hmem : d ∈ '<' :: '<' :: '<' :: blanks :=
        hc ▸ List.mem_append_left _ (List.mem_of_getLast? hx)
      simp only [List.mem_cons] at hmem
      rcases hmem with rfl | rfl | rfl | hmem
      · exact hd (Or.inl rfl)
      · exact hd (Or.inl rfl)
      · exact hd (Or.inl rfl)
      · exact hd (isAngleOrBlank_of_isIndent (hblanks d hmem))

/-- An opening tag ends with a letter. -/
theorem getLast?_of_openTag? {source before tag rest : Text}
    (h : openTag? source = some (before, tag, rest)) :
    ∃ d, (before ++ tag).getLast? = some d ∧ ¬IsAngleOrBlank d := by
  simp only [openTag?, Option.ite_none_right_eq_some, Option.some.injEq, Prod.mk.injEq,
    Bool.and_eq_true] at h
  obtain ⟨⟨hname, -⟩, -, rfl, -⟩ := h
  have hlast := congrArg List.getLast? (beq_iff_eq.1 hname)
  rw [List.getLast?_map] at hlast
  obtain ⟨d, hd, hp⟩ := Option.map_eq_some_iff.1 hlast
  refine ⟨d, ?_, ?_⟩
  · rw [List.getLast?_append, hd, Option.some_or]
  · rintro (rfl | rfl | rfl) <;> exact absurd hp (by decide)

/-- A preamble stands before an opening tag. -/
theorem openTag?_of_preamble {source before : Text} {ps : List Piece}
    (h : scan source = .ok (⟨.preamble, before⟩ :: ps)) : (openTag? source).isSome := by
  by_contra hnone
  rw [scan, Option.not_isSome_iff_eq_none.1 hnone] at h
  obtain ⟨c, rest, n, -, hstep, -⟩ := pieceAt_of_pieces h
  cases pieceShape_of_pieceAt hstep

namespace Enclosure

/-- **The pieces are the same with another text inside if and only if the enclosure admits it.** -/
theorem scan_around_iff {e : Enclosure} {body body' : Text} {ps qs : List Piece} {source : Text}
    (h : scan source = .ok (ps ++ e.around body :: qs)) (hopen : (openTag? source).isSome)
    (hbody : e.Holds body') :
    scan (textOf ps ++ ((e.around body').text ++ textOf qs)) = .ok (ps ++ e.around body' :: qs) ↔
      e.Admits (textOf ps) body' := by
  refine ⟨fun h' => ⟨hbody, ?_⟩, scan_around h hopen⟩
  rintro rfl hname hangles
  obtain ⟨⟨before, tag, rest⟩, htag⟩ := Option.isSome_iff_exists.1 hopen
  obtain ⟨ps, u, rfl, -, -, -⟩ := cut_of_scan h htag
  obtain ⟨⟨before', tag', rest'⟩, htag'⟩ :=
    Option.isSome_iff_exists.1 (openTag?_of_preamble h')
  obtain ⟨ps', u', hps', -, hcut, -⟩ := cut_of_scan h' htag'
  obtain ⟨hbefore, hlater⟩ := List.cons.inj hps'
  obtain ⟨htags, rfl⟩ := List.cons.inj hlater
  obtain rfl : before = before' := congrArg Piece.text hbefore
  obtain rfl : tag = tag' := congrArg Piece.text htags
  obtain ⟨d, hd, hletter⟩ := getLast?_of_openTag? htag
  rw [textOf_cons, textOf_cons, hcut.textOf_eq, ← List.append_assoc] at hangles
  refine Cut.not_afterAngles hcut ?_ (hangles.of_append hd hletter)
  cases body' with
  | nil => exact absurd hname Bool.false_ne_true
  | cons c body' => exact hname

end Enclosure

end Script
end Scaffold

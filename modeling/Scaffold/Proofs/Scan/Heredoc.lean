/-
# How far a heredoc looks ahead

A heredoc starts with three angle signs and a first line that names its label; it ends at the
first line that starts with the label. `heredocPiece_eq_ok_iff` says which texts are a heredoc and
how long it is. Its body, if it ends within `x`, is the same before all texts that do not go on
with the label (`heredocBodyLength_append`).
-/

import Scaffold.Proofs.Scan.Lookahead

namespace Scaffold
namespace Script

/-! ### The body -/

/-- What a line has to do with a heredoc does not depend on the lines after it. -/
theorem closesHeredoc_line {label : Text} (hl : '\n' ∉ label) (line z z' : Text) :
    closesHeredoc label (line ++ '\n' :: z) = closesHeredoc label (line ++ '\n' :: z') := by
  have hbody : ∀ w : Text, (line ++ '\n' :: w).dropWhile Text.isIndent =
      line.dropWhile Text.isIndent ++ '\n' :: w := by
    intro w
    rw [List.dropWhile_append]
    split
    · rename_i he
      rw [List.isEmpty_iff.1 he]
      rfl
    · rfl
  simp only [closesHeredoc, hbody]
  generalize line.dropWhile Text.isIndent = body
  induction label generalizing body with
  | nil => cases body <;> rfl
  | cons a label ih =>
    obtain ⟨ha, hl⟩ := not_or.1 (mt List.mem_cons.2 hl)
    cases body with
    | nil =>
      have hn : (a == '\n') = false := beq_false_of_ne (Ne.symm ha)
      rw [List.nil_append, List.nil_append, List.isPrefixOf_cons_cons, List.isPrefixOf_cons_cons,
        hn]
      rfl
    | cons b body =>
      have := ih hl body
      simp only [List.cons_append, List.isPrefixOf_cons_cons, List.length_cons, List.drop_succ_cons]
      rw [Bool.and_assoc, Bool.and_assoc, this]

/-- A line of `y` that ends a heredoc also ends it before another text that does not go on with
the label. -/
theorem closesHeredoc_append {label y v v' : Text} (h : closesHeredoc label (y ++ v) = true)
    (hle : ((y ++ v).takeWhile Text.isIndent).length + label.length ≤ y.length)
    (hv : ¬v'.head?.any isWordChar) (hne : label ≠ []) :
    closesHeredoc label (y ++ v') = true ∧
      (y ++ v').takeWhile Text.isIndent = (y ++ v).takeWhile Text.isIndent := by
  have hpos : 0 < label.length := List.length_pos_iff.2 hne
  have hlt : (y.takeWhile Text.isIndent).length ≠ y.length := by
    intro he
    rw [List.takeWhile_append, if_pos he, List.length_append] at hle
    omega
  have htake : ∀ w, (y ++ w).takeWhile Text.isIndent = y.takeWhile Text.isIndent := by
    intro w
    rw [List.takeWhile_append, if_neg hlt]
  have hdrop : ∀ w, (y ++ w).dropWhile Text.isIndent = y.dropWhile Text.isIndent ++ w := by
    intro w
    rw [List.dropWhile_append, if_neg]
    intro he
    rw [List.isEmpty_iff] at he
    have := List.takeWhile_append_dropWhile (p := Text.isIndent) (l := y)
    rw [he, List.append_nil] at this
    exact hlt (by rw [this])
  have hlen := congrArg List.length (List.takeWhile_append_dropWhile (p := Text.isIndent) (l := y))
  rw [List.length_append] at hlen
  rw [htake] at hle
  refine ⟨?_, by rw [htake, htake]⟩
  simp only [closesHeredoc, hdrop, Bool.and_eq_true, List.isPrefixOf_iff_prefix] at h ⊢
  generalize y.dropWhile Text.isIndent = body at *
  obtain ⟨hp, hnext⟩ := h
  obtain ⟨tail, rfl⟩ : ∃ tail, body = label ++ tail := by
    obtain ⟨t, ht⟩ := hp
    obtain ⟨e, he⟩ := List.prefix_of_prefix_length_le ⟨t, ht⟩ (List.prefix_append body v) (by omega)
    exact ⟨e, he.symm⟩
  rw [List.append_assoc] at hnext ⊢
  refine ⟨List.prefix_append _ _, ?_⟩
  rw [List.drop_left] at hnext ⊢
  cases tail with
  | nil => simpa using hv
  | cons d tail => exact hnext

/-- The body of a heredoc ends with its label. -/
theorem heredocBodyLength_spec {label text : Text} {fresh : Bool} {n : Nat}
    (h : heredocBodyLength label fresh text = some n) :
    ∃ lines rest, text = lines ++ (label ++ rest) ∧ n = lines.length + label.length := by
  induction text generalizing fresh n with
  | nil => cases h
  | cons c text ih =>
    rw [heredocBodyLength] at h
    split at h
    · rename_i hc
      cases h
      simp only [Bool.and_eq_true, closesHeredoc, List.isPrefixOf_iff_prefix] at hc
      obtain ⟨rest, hrest⟩ := hc.2.1
      refine ⟨(c :: text).takeWhile Text.isIndent, rest, ?_, rfl⟩
      rw [hrest, List.takeWhile_append_dropWhile]
    · obtain ⟨m, hm, rfl⟩ := Option.map_eq_some_iff.1 h
      obtain ⟨lines, rest, rfl, rfl⟩ := ih hm
      exact ⟨c :: lines, rest, rfl, by rw [List.length_cons]; omega⟩

/-- Where no line starts, a heredoc goes on to the next line at least. -/
theorem newline_of_heredocBodyLength {label text : Text} {n : Nat}
    (h : heredocBodyLength label false text = some n) :
    ∃ line rest, text = line ++ '\n' :: rest ∧ line.length < n := by
  induction text generalizing n with
  | nil => cases h
  | cons c text ih =>
    rw [heredocBodyLength, Bool.false_and, if_neg Bool.false_ne_true] at h
    obtain ⟨m, hm, rfl⟩ := Option.map_eq_some_iff.1 h
    by_cases hc : c = '\n'
    · exact ⟨[], text, by rw [hc]; rfl, Nat.succ_pos m⟩
    · rw [beq_false_of_ne hc] at hm
      obtain ⟨line, rest, rfl, hlt⟩ := ih hm
      exact ⟨c :: line, rest, rfl, Nat.succ_lt_succ hlt⟩

/-- A heredoc's body that ends within `x` does not depend on what follows `x`, as long as that
does not go on with the label. -/
theorem heredocBodyLength_append {label x v : Text} {fresh : Bool} {n : Nat} (hne : label ≠ [])
    (hl : '\n' ∉ label) (h : heredocBodyLength label fresh (x ++ v) = some n) (hn : n ≤ x.length)
    {v' : Text} (hv : ¬v'.head?.any isWordChar) :
    heredocBodyLength label fresh (x ++ v') = some n := by
  induction x generalizing fresh n with
  | nil =>
    obtain ⟨lines, rest, _, rfl⟩ := heredocBodyLength_spec h
    have := List.length_pos_iff.2 hne
    rw [List.length_nil] at hn
    omega
  | cons c x ih =>
    rw [List.cons_append, heredocBodyLength] at h ⊢
    split at h
    · rename_i hc
      cases h
      rw [Bool.and_eq_true] at hc
      obtain ⟨hclose, htake⟩ := closesHeredoc_append (y := c :: x) hc.2 hn hv hne
      rw [List.cons_append] at hclose htake
      rw [hclose, hc.1, htake]
      rfl
    · rename_i hc
      obtain ⟨m, hm, rfl⟩ := Option.map_eq_some_iff.1 h
      rw [List.length_cons] at hn
      -- the line that was looked at ends before the label, so within `c :: x`
      obtain ⟨line, rest, hx⟩ : ∃ line rest, c :: x = line ++ '\n' :: rest := by
        by_cases hcn : c = '\n'
        · exact ⟨[], x, by rw [hcn]; rfl⟩
        · rw [beq_false_of_ne hcn] at hm
          obtain ⟨line, rest, he, hlt⟩ := newline_of_heredocBodyLength hm
          have hp : line ++ ['\n'] <+: x :=
            List.prefix_of_prefix_length_le ⟨rest, by rw [he, List.append_assoc]; rfl⟩
              (List.prefix_append x v) (by rw [List.length_append, List.length_singleton]; omega)
          obtain ⟨tail, rfl⟩ := hp
          exact ⟨c :: line, tail, by simp⟩
      have hc' : ¬(fresh && closesHeredoc label (c :: (x ++ v'))) = true := by
        rw [← List.cons_append, hx, List.append_assoc] at hc ⊢
        rwa [List.cons_append, closesHeredoc_line hl line _ (rest ++ v)]
      rw [if_neg hc', ih hm (by omega)]
      rfl

/-! ### The first line -/

/-- A label of a heredoc: word characters, the first of which may start a name. -/
def IsLabel (label : Text) : Prop :=
  label.head?.any isNameStart = true ∧ ∀ c ∈ label, isWordChar c = true

/-- A label is not empty. -/
theorem IsLabel.ne_nil {label : Text} (h : IsLabel label) : label ≠ [] := by
  rintro rfl
  exact absurd h.1 (by decide)

/-- A label ends no line. -/
theorem IsLabel.newline_not_mem {label : Text} (h : IsLabel label) : '\n' ∉ label :=
  fun hn => absurd (h.2 _ hn) (by decide)

/-- The quote around the label of a heredoc, if there is one. -/
def IsLabelQuote (quote : Text) : Prop := quote = [] ∨ quote = ['\x27'] ∨ quote = ['\x22']

/-- What may stand before the line feed that ends a line. -/
def OptionalReturn (cr : Text) : Prop := cr = [] ∨ cr = ['\r']

/-- The first line of a heredoc, from the angle signs on and with its line break. -/
def IsHeredocHead (label head : Text) : Prop :=
  ∃ blanks quote cr, head = blanks ++ (quote ++ (label ++ (quote ++ (cr ++ ['\n'])))) ∧
    (∀ c ∈ blanks, Text.isIndent c = true) ∧ IsLabelQuote quote ∧ OptionalReturn cr ∧ IsLabel label

/-- The first line of a heredoc names a label. -/
theorem IsHeredocHead.isLabel {label head : Text} (h : IsHeredocHead label head) :
    IsLabel label := by
  obtain ⟨_, _, _, _, _, _, _, hl⟩ := h
  exact hl

/-- The quote that the text after the blanks starts with. -/
def labelQuote (opened : Text) : Text :=
  opened.head?.toList.filter fun c => c == '\x27' || c == '\x22'

/-- What follows the blanks and the quote that may stand before the label of a heredoc. -/
def labelStart (rest : Text) : Text :=
  let opened := rest.dropWhile Text.isIndent
  opened.drop (labelQuote opened).length

/-- The quote before a label is what the text starts with. -/
theorem labelQuote_append_drop (opened : Text) :
    labelQuote opened ++ opened.drop (labelQuote opened).length = opened := by
  cases opened with
  | nil => rfl
  | cons c opened =>
    by_cases hc : (c == '\x27' || c == '\x22') = true <;> simp [labelQuote, hc]

/-- What is taken for the quote before a label is one, or nothing. -/
theorem isLabelQuote_labelQuote (opened : Text) : IsLabelQuote (labelQuote opened) := by
  cases opened with
  | nil => exact Or.inl rfl
  | cons c opened =>
    by_cases h1 : c = '\x27'
    · simp [IsLabelQuote, labelQuote, h1]
    · by_cases h2 : c = '\x22' <;> simp [IsLabelQuote, labelQuote, h1, h2]

/-- What follows a run of characters. -/
theorem drop_takeWhile_length (p : Char → Bool) (text : Text) :
    text.drop (text.takeWhile p).length = text.dropWhile p := by
  induction text with
  | nil => rfl
  | cons c text ih =>
    rw [List.takeWhile_cons, List.dropWhile_cons]
    split
    · exact ih
    · rfl

/-- A word character is no indentation. -/
theorem not_isIndent_of_isWordChar {c : Char} (h : isWordChar c = true) :
    Text.isIndent c = false := by
  rw [Bool.eq_false_iff]
  intro hc
  simp only [Text.isIndent, Bool.or_eq_true, beq_iff_eq] at hc
  rcases hc with rfl | rfl <;> exact absurd h (by decide)

/-- A word character is no quote. -/
theorem not_quote_of_isWordChar {c : Char} (h : isWordChar c = true) :
    (c == '\x27' || c == '\x22') = false := by
  rw [Bool.eq_false_iff]
  intro hc
  simp only [Bool.or_eq_true, beq_iff_eq] at hc
  rcases hc with rfl | rfl <;> exact absurd h (by decide)

/-- Where a label follows, the text is blanks, a quote, the label and the rest. -/
theorem exists_label {rest : Text} (h : (labelStart rest).head?.any isNameStart = true) :
    ∃ blanks quote label ended, rest = blanks ++ (quote ++ (label ++ ended)) ∧
      (∀ c ∈ blanks, Text.isIndent c = true) ∧ IsLabelQuote quote ∧ IsLabel label ∧
      ¬ended.head?.any isWordChar := by
  have hblanks := List.takeWhile_append_dropWhile (p := Text.isIndent) (l := rest)
  have hquote := labelQuote_append_drop (rest.dropWhile Text.isIndent)
  have hlabel := List.takeWhile_append_dropWhile (p := isWordChar) (l := labelStart rest)
  refine ⟨_, _, _, _, by rw [hlabel]; exact (hquote ▸ hblanks).symm,
    fun c hc => List.mem_takeWhile_imp hc, isLabelQuote_labelQuote _,
    ⟨?_, fun c hc => List.mem_takeWhile_imp hc⟩, ?_⟩
  · cases hs : labelStart rest with
    | nil =>
      rw [hs] at h
      exact absurd h Bool.false_ne_true
    | cons c named =>
      rw [hs] at h
      rw [List.takeWhile_cons_of_pos (isWordChar_of_isNameStart h)]
      exact h
  · have := List.head?_dropWhile_not isWordChar (labelStart rest)
    cases hd : (labelStart rest).dropWhile isWordChar with
    | nil => exact Bool.false_ne_true
    | cons c ended => simpa [hd] using this

/-- Without a label, three angle signs start no heredoc. -/
theorem heredocPiece_of_not_label {rest : Text} (h : ¬(labelStart rest).head?.any isNameStart) :
    heredocPiece rest = .ok (.token .symbol, 0) := by
  simp only [labelStart, labelQuote] at h
  simp only [heredocPiece, drop_takeWhile_length]
  rw [if_neg h]
  rfl

/-- A line break is a newline with a carriage return or without. -/
theorem afterReturn_eq_iff {text body : Text} :
    (if text.head? = some '\r' then text.tail else text) = '\n' :: body ↔
      ∃ cr, OptionalReturn cr ∧ text = cr ++ '\n' :: body := by
  constructor
  · intro h
    cases text with
    | nil => cases h
    | cons c text =>
      by_cases hc : c = '\r'
      · subst hc
        exact ⟨['\r'], Or.inr rfl, congrArg ('\r' :: ·) h⟩
      · rw [if_neg (by simpa using hc)] at h
        exact ⟨[], Or.inl rfl, h⟩
  · rintro ⟨cr, rfl | rfl, rfl⟩ <;> rfl

section Label

variable {blanks quote label ended : Text}

/-- The quote before a label is found. -/
theorem labelQuote_append (hq : IsLabelQuote quote) (hl : IsLabel label) (ended : Text) :
    labelQuote (quote ++ (label ++ ended)) = quote := by
  obtain ⟨c, label, rfl⟩ := List.exists_cons_of_ne_nil hl.ne_nil
  have hc := not_quote_of_isWordChar (hl.2 c List.mem_cons_self)
  rcases hq with rfl | rfl | rfl
  · exact List.filter_cons_of_neg (by rw [hc]; exact Bool.false_ne_true)
  · rfl
  · rfl

/-- The blanks before a quote and a label are found. -/
theorem dropWhile_blanks (hb : ∀ c ∈ blanks, Text.isIndent c = true) (hq : IsLabelQuote quote)
    (hl : IsLabel label) : (blanks ++ (quote ++ (label ++ ended))).dropWhile Text.isIndent =
      quote ++ (label ++ ended) := by
  obtain ⟨c, label, rfl⟩ := List.exists_cons_of_ne_nil hl.ne_nil
  have hc := not_isIndent_of_isWordChar (hl.2 c List.mem_cons_self)
  rw [List.dropWhile_append_of_pos hb]
  rcases hq with rfl | rfl | rfl
  · exact List.dropWhile_cons_of_neg (by rw [hc]; exact Bool.false_ne_true)
  · rfl
  · rfl

/-- A label starts like a name. -/
theorem head?_label (hl : IsLabel label) (ended : Text) :
    (label ++ ended).head?.any isNameStart = true := by
  obtain ⟨c, label, rfl⟩ := List.exists_cons_of_ne_nil hl.ne_nil
  exact hl.1

/-- Where a label follows and does not end the line, quoted as it may be, the text is malformed. -/
theorem heredocPiece_malformed (hb : ∀ c ∈ blanks, Text.isIndent c = true)
    (hq : IsLabelQuote quote) (hl : IsLabel label) (he : ¬ended.head?.any isWordChar)
    (hline : ¬∃ cr body, OptionalReturn cr ∧ ended = quote ++ (cr ++ '\n' :: body)) :
    heredocPiece (blanks ++ (quote ++ (label ++ ended))) = .error .malformedHeredocLabel := by
  have hquote := labelQuote_append hq hl ended
  have hne : label.isEmpty = false := by simpa using hl.ne_nil
  have hlabel : (label ++ ended).takeWhile isWordChar = label := takeWhile_of_forall hl.2 he
  unfold labelQuote at hquote
  simp only [heredocPiece, drop_takeWhile_length, dropWhile_blanks hb hq hl, hquote, List.drop_left,
    head?_label hl, if_true, hlabel, hne, Bool.false_eq_true, if_false]
  split
  · rfl
  rename_i hp
  obtain ⟨line, rfl⟩ : quote <+: ended := by simpa using hp
  rw [List.drop_left]
  generalize hbreak : (if line.head? = some '\r' then line.tail else line) = broken
  split
  · rfl
  rename_i hn
  obtain ⟨body, rfl⟩ := List.head?_eq_some_iff.1 (not_not.1 hn)
  obtain ⟨cr, hcr, rfl⟩ := afterReturn_eq_iff.1 hbreak
  exact absurd ⟨cr, body, hcr, rfl⟩ hline

/-- Where a label follows and ends the line, one of the next lines must start with the label. -/
theorem heredocPiece_head (hb : ∀ c ∈ blanks, Text.isIndent c = true) (hq : IsLabelQuote quote)
    (hl : IsLabel label) {cr : Text} (hcr : OptionalReturn cr) (body : Text) :
    heredocPiece (blanks ++ (quote ++ (label ++ (quote ++ (cr ++ '\n' :: body))))) =
      match heredocBodyLength label true body with
      | none => .error .unterminatedHeredoc
      | some more => .ok (.token .string,
          2 + (blanks ++ (quote ++ (label ++ (quote ++ (cr ++ ['\n']))))).length + more) := by
  have hended : ¬(quote ++ (cr ++ '\n' :: body)).head?.any isWordChar := by
    rcases hq with rfl | rfl | rfl <;> rcases hcr with rfl | rfl <;> exact Bool.false_ne_true
  have hquote := labelQuote_append hq hl (quote ++ (cr ++ '\n' :: body))
  have hne : label.isEmpty = false := by simpa using hl.ne_nil
  have hlabel := takeWhile_of_forall hl.2 hended
  have hquoted : quote.isPrefixOf (quote ++ (cr ++ '\n' :: body)) = true :=
    List.isPrefixOf_iff_prefix.2 (List.prefix_append _ _)
  have hbreak := afterReturn_eq_iff.2 ⟨cr, hcr, Eq.refl (cr ++ '\n' :: body)⟩
  unfold labelQuote at hquote
  simp only [heredocPiece, drop_takeWhile_length, dropWhile_blanks hb hq hl, hquote, List.drop_left,
    head?_label hl, if_true, hlabel, hne, hquoted, hbreak, List.head?_cons, List.tail_cons, ne_eq,
    not_true_eq_false, Bool.not_true, Bool.false_eq_true, if_false]
  cases heredocBodyLength label true body with
  | none => rfl
  | some more =>
    simp only [List.length_append, List.length_cons, List.length_nil, Except.ok.injEq,
      Prod.mk.injEq, true_and]
    omega

/-- Where a label follows, the quote must stand after it as well, then the line must end, and one
of the next lines must start with the label. -/
theorem heredocPiece_label_iff (hb : ∀ c ∈ blanks, Text.isIndent c = true)
    (hq : IsLabelQuote quote) (hl : IsLabel label) (he : ¬ended.head?.any isWordChar)
    {kind : PieceKind} {n : Nat} :
    heredocPiece (blanks ++ (quote ++ (label ++ ended))) = .ok (kind, n) ↔
      ∃ cr body more, OptionalReturn cr ∧ ended = quote ++ (cr ++ '\n' :: body) ∧
        heredocBodyLength label true body = some more ∧ kind = .token .string ∧
        n = 2 + (blanks ++ (quote ++ (label ++ (quote ++ (cr ++ ['\n']))))).length + more := by
  constructor
  · intro h
    by_cases hline : ∃ cr body, OptionalReturn cr ∧ ended = quote ++ (cr ++ '\n' :: body)
    · obtain ⟨cr, body, hcr, rfl⟩ := hline
      rw [heredocPiece_head hb hq hl hcr] at h
      split at h
      · cases h
      · rename_i more hm
        cases h
        exact ⟨cr, body, more, hcr, rfl, hm, rfl, rfl⟩
    · rw [heredocPiece_malformed hb hq hl he hline] at h
      cases h
  · rintro ⟨cr, body, more, hcr, rfl, hm, rfl, rfl⟩
    rw [heredocPiece_head hb hq hl hcr, hm]

end Label

/-- **What three angle signs start** is a symbol if no label follows, and otherwise a heredoc, as
long as its first line and its body. -/
theorem heredocPiece_eq_ok_iff {rest : Text} {kind : PieceKind} {n : Nat} :
    heredocPiece rest = .ok (kind, n) ↔
      (¬(labelStart rest).head?.any isNameStart ∧ kind = .token .symbol ∧ n = 0) ∨
        ∃ label head body more, rest = head ++ body ∧ IsHeredocHead label head ∧
          heredocBodyLength label true body = some more ∧ kind = .token .string ∧
          n = 2 + head.length + more := by
  constructor
  · intro h
    by_cases hs : (labelStart rest).head?.any isNameStart
    · obtain ⟨blanks, quote, label, ended, rfl, hb, hq, hl, he⟩ := exists_label hs
      obtain ⟨cr, body, more, hcr, rfl, hm, rfl, rfl⟩ := (heredocPiece_label_iff hb hq hl he).1 h
      exact Or.inr ⟨label, _, body, more, by simp, ⟨blanks, quote, cr, rfl, hb, hq, hcr, hl⟩, hm,
        rfl, rfl⟩
    · rw [heredocPiece_of_not_label hs] at h
      cases h
      exact Or.inl ⟨hs, rfl, rfl⟩
  · rintro (⟨hs, rfl, rfl⟩ | ⟨label, head, body, more, rfl, hh, hm, rfl, rfl⟩)
    · exact heredocPiece_of_not_label hs
    · obtain ⟨blanks, quote, cr, rfl, hb, hq, hcr, hl⟩ := hh
      have hended : ¬(quote ++ (cr ++ '\n' :: body)).head?.any isWordChar := by
        rcases hq with rfl | rfl | rfl <;> rcases hcr with rfl | rfl <;> exact Bool.false_ne_true
      have := (heredocPiece_label_iff hb hq hl hended).2 ⟨cr, body, more, hcr, rfl, hm, rfl, rfl⟩
      simpa only [List.append_assoc, List.cons_append, List.nil_append] using this

end Script
end Scaffold

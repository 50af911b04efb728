/-
# Line breaks stay of one kind

In a text whose lines end with a carriage return and a newline each (`Paired`), an edit keeps the
two together if it begins and ends beside a pair, not in one (`CleanAt`), and breaks lines the same
way. Every edit that an operation makes does so (`EndSlot.cleanAt_insertItem`, `cleanAt_value`), and
the lines of its text are broken as the first line of the document is (`insertItem_text`). An
operation is some of these edits, one after the other (`apply_worked`). So the line breaks of a
document stay as they are over any run of operations (`run_lineBreaks`).
-/

import Mathlib.Logic.Relation
import Scaffold.Proofs.Document.Inserted
import Scaffold.Proofs.Document.Operations
import Scaffold.Proofs.Document.Setting

namespace Scaffold

/-! ### Pairs of a carriage return and a newline -/

namespace Text

/-- No carriage return and no newline stands alone. -/
structure Paired (text : Text) : Prop where
  newline_behind : ∀ {x y}, text = x ++ '\r' :: y → y.head? = some '\n'
  return_before : ∀ {x y}, text = x ++ '\n' :: y → x.getLast? = some '\r'

/-- The text is one line. -/
def Unbroken (text : Text) : Prop := '\r' ∉ text ∧ '\n' ∉ text

instance (text : Text) : Decidable (Unbroken text) := inferInstanceAs (Decidable (_ ∧ _))

/-- Two parts of a line are a part of a line. -/
theorem Unbroken.append {x y : Text} (hx : Unbroken x) (hy : Unbroken y) : Unbroken (x ++ y) :=
  ⟨fun h => (List.mem_append.1 h).elim hx.1 hy.1, fun h => (List.mem_append.1 h).elim hx.2 hy.2⟩

/-- A text within a line has no line breaks to pair. -/
theorem Unbroken.paired {text : Text} (h : Unbroken text) : Paired text where
  newline_behind := by
    rintro x y rfl
    exact absurd (List.mem_append_right _ List.mem_cons_self) h.1
  return_before := by
    rintro x y rfl
    exact absurd (List.mem_append_right _ List.mem_cons_self) h.2

namespace Paired

variable {x y : Text}

/-- Line breaks stay paired where two texts meet. -/
theorem append (hx : Paired x) (hy : Paired y) : Paired (x ++ y) where
  newline_behind := by
    intro u v h
    rcases List.append_eq_append_iff.1 h with ⟨w, rfl, hw⟩ | ⟨w, rfl, hw⟩
    · exact hy.newline_behind hw
    · cases w with
      | nil => exact hy.newline_behind (x := []) hw.symm
      | cons c w =>
        obtain ⟨rfl, rfl⟩ := List.cons.inj hw
        change (w ++ y).head? = some '\n'
        rw [List.head?_append, hx.newline_behind rfl]
        rfl
  return_before := by
    intro u v h
    rcases List.append_eq_append_iff.1 h with ⟨w, rfl, hw⟩ | ⟨w, rfl, hw⟩
    · rw [List.getLast?_append, hy.return_before hw]
      rfl
    · cases w with
      | nil =>
        have hnil := hy.return_before (x := []) hw.symm
        cases hnil
      | cons c w =>
        obtain ⟨rfl, -⟩ := List.cons.inj hw
        exact hx.return_before rfl

/-- A paired text may be cut beside a pair. -/
theorem cut (h : Paired (x ++ y)) (hx : x.getLast? ≠ some '\r') : Paired x ∧ Paired y := by
  refine ⟨⟨?_, ?_⟩, ⟨?_, ?_⟩⟩
  · rintro u v rfl
    have hhead : (v ++ y).head? = some '\n' := h.newline_behind (x := u) (by simp)
    cases v with
    | nil => simp at hx
    | cons c v => exact hhead
  · rintro u v rfl
    exact h.return_before (y := v ++ y) (by simp)
  · rintro u v rfl
    exact h.newline_behind (x := x ++ u) (by simp)
  · rintro u v rfl
    have hlast : (x ++ u).getLast? = some '\r' := h.return_before (y := v) (by simp)
    rcases List.eq_nil_or_concat u with rfl | ⟨u, c, rfl⟩
    · rw [List.append_nil] at hlast
      exact absurd hlast hx
    · simpa using hlast

/-- Only a newline stands behind a carriage return. -/
theorem getLast?_ne (h : Paired (x ++ y)) (hy : y.head? ≠ some '\n') :
    x.getLast? ≠ some '\r' := by
  intro hlast
  obtain ⟨u, rfl⟩ := List.getLast?_eq_some_iff.1 hlast
  exact hy (h.newline_behind (x := u) (by simp))

end Paired

/-- A carriage return and a newline are a pair. -/
theorem paired_pair : Paired ['\r', '\n'] where
  newline_behind := by
    intro x y h
    rcases x with _ | ⟨c, _ | ⟨d, x⟩⟩
    · cases h
      rfl
    · cases h
    · simp at h
  return_before := by
    intro x y h
    rcases x with _ | ⟨c, _ | ⟨d, x⟩⟩
    · cases h
    · cases h
      rfl
    · simp at h

/-- Lines that are joined by pairs. -/
theorem paired_intercalate {lines : List Text} (h : ∀ line ∈ lines, Unbroken line) :
    Paired (['\r', '\n'].intercalate lines) := by
  induction lines with
  | nil => exact Unbroken.paired (by decide)
  | cons line lines ih =>
    obtain ⟨hline, hlines⟩ := List.forall_mem_cons.1 h
    cases lines with
    | nil =>
      rw [List.intercalate_singleton]
      exact hline.paired
    | cons next lines =>
      rw [List.intercalate_cons_cons]
      exact (hline.paired.append paired_pair).append (ih hlines)

end Text

namespace Config

open Script (ArrayLiteral Item Neighbours)
open Text (Paired Unbroken)

/-! ### Edits beside the pairs -/

/-- The place is not behind a carriage return. -/
def CleanAt (source : Text) (offset : Nat) : Prop := (source.take offset).getLast? ≠ some '\r'

variable {source : Text} {offset : Nat}

/-- A place before another character than a newline is not inside a line break. -/
theorem cleanAt_of_drop (h : Paired source) (hd : (source.drop offset).head? ≠ some '\n') :
    CleanAt source offset := by
  rw [← List.take_append_drop offset source] at h
  exact h.getLast?_ne hd

/-- The place before a carriage return is not inside a line break. -/
theorem cleanAt_beforeCarriageReturn (h : Paired source) (offset : Nat) :
    CleanAt source (beforeCarriageReturn source offset) := by
  unfold beforeCarriageReturn
  split
  · rename_i hlast
    obtain ⟨x, hx⟩ := List.getLast?_eq_some_iff.1 hlast
    have hsource : source = x ++ '\r' :: source.drop offset := by
      rw [List.append_cons, ← hx, List.take_append_drop]
    have hbehind := h.newline_behind hsource
    have hlength : x.length + 1 = offset := by
      have hlt : offset < source.length := by
        by_contra hge
        rw [List.drop_eq_nil_of_le (Nat.le_of_not_lt hge)] at hbehind
        cases hbehind
      rw [← List.length_take_of_le hlt.le, hx, List.length_append]
      rfl
    have htake : source.take (offset - 1) = x := by
      rw [hsource, ← hlength, Nat.add_sub_cancel, List.take_left]
    rw [CleanAt, htake]
    rw [hsource] at h
    exact h.getLast?_ne (by simp)
  · assumption

/-- An edit between line breaks that puts paired line breaks in leaves all paired. -/
theorem paired_apply {edit : Edit} (h : Paired source) (hstart : CleanAt source edit.start)
    (hstop : CleanAt source edit.stop) (ht : Paired edit.text) : Paired (edit.apply source) := by
  have hcut : ∀ {offset}, CleanAt source offset →
      Paired (source.take offset) ∧ Paired (source.drop offset) := by
    intro offset hclean
    rw [← List.take_append_drop offset source] at h
    exact h.cut hclean
  exact ((hcut hstart).1.append ht).append (hcut hstop).2

/-- **Edits beside the pairs keep the pairs.** -/
theorem paired_applyAll {edits : List Edit} (h : Paired source) (hkeeps : KeepsText source edits)
    (hclean : ∀ edit ∈ edits, CleanAt source edit.start ∧ CleanAt source edit.stop)
    (htext : ∀ edit ∈ edits, Paired edit.text) : Paired (Edit.applyAll edits source) := by
  obtain ⟨hbounds, hordered, -⟩ := hkeeps
  induction edits generalizing source with
  | nil => exact h
  | cons edit edits ih =>
    obtain ⟨⟨hle, hlength⟩, hbounds⟩ := List.forall_mem_cons.1 hbounds
    obtain ⟨⟨hstart, hstop⟩, hclean⟩ := List.forall_mem_cons.1 hclean
    obtain ⟨hedit, htext⟩ := List.forall_mem_cons.1 htext
    obtain ⟨hbefore, hordered⟩ := List.pairwise_cons.1 hordered
    -- an edit leaves the text before it alone
    have htake : ∀ n ≤ edit.start, (edit.apply source).take n = source.take n := by
      intro n hn
      have hn' : n ≤ (source.take edit.start).length := by
        rw [List.length_take]
        omega
      rw [Edit.apply, List.append_assoc, List.take_append_of_le_length hn', List.take_take,
        Nat.min_eq_left hn]
    have hlength' : edit.start ≤ (edit.apply source).length := by
      have hstart' := congrArg List.length (htake _ (Nat.le_refl _))
      rw [List.length_take, List.length_take] at hstart'
      omega
    refine ih (paired_apply h hstart hstop hedit) (fun other ho => ?_) htext
      (fun other ho => ⟨(hbounds other ho).1, (hbefore other ho).trans hlength'⟩) hordered
    have hother := hbefore other ho
    change CleanAt (edit.apply source) _ ∧ CleanAt (edit.apply source) _
    rw [CleanAt, CleanAt, htake _ ((hbounds other ho).1.trans hother), htake _ hother]
    exact hclean other ho

/-- A newline stays where nothing is taken away, or a line is broken. -/
theorem newline_mem_applyAll {edits : List Edit} (h : '\n' ∈ source)
    (hedits : ∀ edit ∈ edits, edit.start = edit.stop ∨ '\n' ∈ edit.text) :
    '\n' ∈ Edit.applyAll edits source := by
  induction edits generalizing source with
  | nil => exact h
  | cons edit edits ih =>
    obtain ⟨hedit, hedits⟩ := List.forall_mem_cons.1 hedits
    refine ih ?_ hedits
    change '\n' ∈ edit.apply source
    rw [Edit.apply, List.mem_append, List.mem_append]
    rcases hedit with heq | htext
    · rw [← List.take_append_drop edit.start source, List.mem_append] at h
      rw [← heq]
      tauto
    · exact .inl (.inr htext)

/-! ### The line break of a document -/

/-- Where newlines have their carriage returns, so has the line break that is written. -/
theorem newline_of_paired (h : Paired source) (hn : '\n' ∈ source) :
    (Layout.detect source).newline = ['\r', '\n'] := by
  obtain ⟨x, y, hsource⟩ := List.append_of_mem hn
  obtain ⟨x', rfl⟩ := List.getLast?_eq_some_iff.1 (h.return_before hsource)
  refine if_pos ?_
  rw [hsource, List.append_assoc]
  exact usesCarriageReturn_append x' y

/-- A text that uses carriage returns has one. -/
theorem return_mem_of_usesCarriageReturn (h : usesCarriageReturn source = true) :
    '\r' ∈ source := by
  induction source with
  | nil => cases h
  | cons c source ih =>
    rw [usesCarriageReturn, Bool.or_eq_true, Bool.and_eq_true, beq_iff_eq] at h
    rcases h with ⟨rfl, -⟩ | h
    · exact List.mem_cons_self
    · exact List.mem_cons_of_mem _ (ih h)

/-- Without a carriage return in the text, the line break that is written is a newline. -/
theorem newline_of_not_mem (h : '\r' ∉ source) : (Layout.detect source).newline = ['\n'] :=
  if_neg fun hr => h (return_mem_of_usesCarriageReturn hr)

/-- A line break has a newline. -/
theorem newline_mem_newline (source : Text) : '\n' ∈ (Layout.detect source).newline := by
  obtain ⟨cr, -, hnewline⟩ := newline_cases source
  rw [hnewline]
  exact List.mem_append_right _ (List.mem_singleton_self _)

/-- Indentation stands within a line. -/
theorem unbroken_of_isIndent {indent : Text} (h : ∀ c ∈ indent, Text.isIndent c = true) :
    Unbroken indent :=
  ⟨fun hmem => absurd (h _ hmem) (by decide), fun hmem => absurd (h _ hmem) (by decide)⟩

/-- **The texts that an insertion is made of.** They are put together from pieces without line
breaks and the line break of the document. Where an edit takes something away, it breaks a line. -/
theorem insertItem_text {P : Text → Prop} (hP : ∀ {x y}, P x → P y → P (x ++ y))
    (hunbroken : ∀ {x}, Unbroken x → P x) (hnewline : P (Layout.detect source).newline)
    {item : Text} (hitem : Unbroken item) (m : ArrayLiteral) :
    ∀ edit ∈ insertItem source m item,
      P edit.text ∧ (edit.start = edit.stop ∨ '\n' ∈ edit.text) := by
  have hcomma : P [','] := hunbroken (by decide)
  have hspace : P [' '] := hunbroken (by decide)
  have hitem : P item := hunbroken hitem
  have hline : ∀ {indent : Text}, (∀ c ∈ indent, Text.isIndent c = true) →
      P ((Layout.detect source).newline ++ indent) := fun h =>
    hP hnewline (hunbroken (unbroken_of_isIndent h))
  have hbreak : ∀ x y : Text, '\n' ∈ x ++ (Layout.detect source).newline ++ y := fun x y =>
    List.mem_append_left _ (List.mem_append_right _ (newline_mem_newline source))
  have hinner := hline (isIndent_innerIndent source m.start)
  have houter := hline (isIndent_lineIndent source m.start)
  have hown := hline (isIndent_itemIndent source m)
  unfold insertItem
  split
  · unfold insertIntoEmpty
    simp only
    split
    · exact List.forall_mem_singleton.2 ⟨hP (hP hinner hitem) hcomma, .inl rfl⟩
    · have htext := hP (hP (hP hinner hitem) hcomma) houter
      rw [← List.append_assoc] at htext
      split
      · exact List.forall_mem_singleton.2 ⟨htext, .inr (hbreak _ _)⟩
      · exact List.forall_mem_singleton.2 ⟨htext, .inl rfl⟩
  · unfold insertAfter
    simp only
    split
    · split
      · exact List.forall_mem_singleton.2 ⟨hP (hP hown hitem) hcomma, .inl rfl⟩
      · split
        · exact List.forall_mem_singleton.2 ⟨hP hcomma (hP hown hitem), .inl rfl⟩
        · exact List.forall_mem_cons.2 ⟨⟨hP hown hitem, .inl rfl⟩,
            List.forall_mem_singleton.2 ⟨hcomma, .inl rfl⟩⟩
    · split
      · exact List.forall_mem_singleton.2 ⟨hP (hP hspace hitem) hcomma, .inl rfl⟩
      · exact List.forall_mem_singleton.2 ⟨hP hcomma (hP hspace hitem), .inl rfl⟩

/-! ### The places of the edits -/

variable {m : ArrayLiteral} {a g z : Text}

/-- No token starts with the second half of a pair. -/
theorem cleanAt_of_startsToken (hp : Paired source)
    (h : Script.StartsToken (source.drop offset)) : CleanAt source offset := by
  refine cleanAt_of_drop hp ?_
  obtain ⟨c, rest, kind, n, htoken, hstep, -⟩ := h
  rw [htoken, List.head?_cons]
  rintro ⟨⟩
  rw [Script.pieceAt_of_isGap rfl] at hstep
  cases hstep

/-- The closing bracket is not inside a line break. -/
theorem EndSlot.cleanAt_close (h : EndSlot source m a g z) (hp : Paired source) :
    CleanAt source m.close := by
  refine cleanAt_of_startsToken hp ?_
  rw [h.source_eq, h.close_eq, ← List.append_assoc, List.drop_left]
  exact h.token

/-- The place behind the last token is not inside a line break. -/
theorem EndSlot.cleanAt_length (h : EndSlot source m a g z) : CleanAt source a.length := by
  rw [CleanAt, h.source_eq, List.take_left]
  exact h.getLast?_ne

/-- From a place that is not inside a line break, neither is the end of the line. -/
theorem cleanAt_endOfLine (hp : Paired source) (hclean : CleanAt source offset) (limit : Nat) :
    CleanAt source (endOfLine source offset limit) := by
  unfold endOfLine
  simp only
  split
  · exact cleanAt_beforeCarriageReturn hp _
  · exact hclean

/-- **An item is put in beside the pairs.** -/
theorem EndSlot.cleanAt_insertItem (h : EndSlot source m a g z) (hp : Paired source)
    (item : Text) : ∀ edit ∈ insertItem source m item,
      CleanAt source edit.start ∧ CleanAt source edit.stop := by
  have hinsert : ∀ {place : Nat} {text : Text}, CleanAt source place →
      CleanAt source (Edit.insert place text).start ∧
        CleanAt source (Edit.insert place text).stop := fun hc => ⟨hc, hc⟩
  have hend := h.cleanAt_length
  unfold insertItem
  split
  · -- an empty literal: its bracket is what the gap stands behind
    rename_i hnil
    have hopen : CleanAt source m.openStop := by
      rwa [h.openStop_eq (List.getLast?_eq_none_iff.1 hnil)]
    unfold insertIntoEmpty
    simp only
    split
    · exact List.forall_mem_singleton.2 (hinsert (cleanAt_beforeCarriageReturn hp _))
    · split
      · exact List.forall_mem_singleton.2 ⟨hopen, h.cleanAt_close hp⟩
      · exact List.forall_mem_singleton.2 (hinsert (h.cleanAt_close hp))
  · -- otherwise it is the last item, or its comma
    rename_i last hlast
    have hcomma : ∀ comma, last.comma = some comma → CleanAt source (comma + 1) := by
      intro comma hc
      rwa [h.comma_eq last hlast comma hc]
    have hstop : last.comma = none → CleanAt source last.stop := by
      intro hc
      rwa [h.stop_eq last hlast hc]
    unfold insertAfter
    simp only
    split
    · split
      · rename_i comma hc
        exact List.forall_mem_singleton.2 (hinsert (cleanAt_endOfLine hp (hcomma comma hc) _))
      · rename_i hc
        split
        · exact List.forall_mem_singleton.2 (hinsert (cleanAt_endOfLine hp (hstop hc) _))
        · exact List.forall_mem_cons.2 ⟨hinsert (cleanAt_endOfLine hp (hstop hc) _),
            List.forall_mem_singleton.2 (hinsert (hstop hc))⟩
    · split
      · rename_i comma hc
        exact List.forall_mem_singleton.2 (hinsert (hcomma comma hc))
      · rename_i hc
        exact List.forall_mem_singleton.2 (hinsert (hstop hc))

namespace Document

variable {document document' : Document} {keys : List Text}

/-- A section that a path leads to has a place for an item, and its edits keep the text around
it. -/
theorem exists_endSlot (hread : document.IsRead) (hleads : Leads document document.file.root keys m) :
    ∃ a g z, EndSlot document.source m a g z ∧
      ∀ item, KeepsText document.source (insertItem document.source m item) := by
  obtain ⟨A, op, I, c, B, htokens, hm, ⟨r, hrA, hr⟩, -⟩ := exists_edited hread hleads
  obtain ⟨us, t, x, g, y, -, hlast, hn⟩ := exists_neighbours htokens hm hrA hr
  refine ⟨_, _, _, hlast.endSlot hn hm, fun item => ?_⟩
  obtain ⟨sep, tail, -, hfitted, -⟩ := insertItem_fitted hn hm hlast item
  exact hfitted.keeps

/-- **A value is replaced beside the pairs.** -/
theorem cleanAt_value (hread : document.IsRead)
    (hleads : Leads document document.file.root keys m) {wanted : Script.Value} {item : Item}
    (hunique : document.matching m wanted = [item]) (hp : Paired document.source) :
    CleanAt document.source item.value.start ∧ CleanAt document.source item.value.stop := by
  obtain ⟨A, op, I, c, B, htokens, hm, ⟨r, hrA, hr⟩, -⟩ := exists_edited hread hleads
  obtain ⟨before, after, hitems⟩ := items_eq_of_matching hunique
  obtain ⟨us, arrow, vs, u, later, rfl, -, hbetween, -, -, hshape⟩ :=
    exists_valueBetween hm hitems (isSome_key_of_matching hunique) B
  rw [hshape] at htokens
  obtain ⟨v, ts, x, g, y, before₂, w, x₂, g₂, y₂, hfirst, hstart, hstop, hn, hn₂⟩ :=
    exists_value_neighbours htokens (List.mem_append_left _ hrA) hr
  rw [hstart, hstop]
  constructor
  · refine cleanAt_of_startsToken hp ?_
    rw [hn.drop_start]
    exact hn.startsToken (head_ne_closeTag (hfirst ▸ hbetween.balanced))
  · rw [CleanAt, hn₂.source_eq, ← List.append_assoc, hn₂.stop_eq, List.take_left,
      List.getLast?_append_of_ne_nil _ hn₂.text_ne_nil]
    exact hn₂.getLast?_ne

/-! ### What an operation does to the text -/

/-- The second document is the first one with an item put into a section. -/
inductive ItemPut (document document' : Document) : Prop
  | splice {keys : List Text} {m : ArrayLiteral} {text : Text}
      (leads : Leads document document.file.root keys m) (unbroken : Unbroken text)
      (splice_eq : document.splice (insertItem document.source m text) = .ok document')

/-- The second document is the first one with the value of an item written anew. -/
inductive ValuePut (document document' : Document) : Prop
  | splice {keys : List Text} {m : ArrayLiteral} {wanted : Script.Value} {item : Item} {text : Text}
      (leads : Leads document document.file.root keys m)
      (unique : document.matching m wanted = [item]) (unbroken : Unbroken text)
      (splice_eq : document.splice [⟨item.value.start, item.value.stop, text⟩] = .ok document')

/-- The second document is the first one with some items put into it, and after that perhaps one
value written anew. -/
def Worked (document document' : Document) : Prop :=
  ∃ document₁, Relation.ReflTransGen ItemPut document document₁ ∧
    (document' = document₁ ∨ ValuePut document₁ document')

/-- Putting an item in keeps the document readable, its line breaks paired and one of them there. -/
theorem ItemPut.paired (h : ItemPut document document') (hread : document.IsRead)
    (hp : Paired document.source) (hn : '\n' ∈ document.source) :
    document'.IsRead ∧ Paired document'.source ∧ '\n' ∈ document'.source := by
  obtain @⟨keys, m, text, leads, unbroken, splice_eq⟩ := h
  obtain ⟨hsource, -, hread'⟩ := read_eq_ok_iff.1 splice_eq
  obtain ⟨a, g, z, hslot, hkeeps⟩ := exists_endSlot hread leads
  have hnewline : Paired (Layout.detect document.source).newline := by
    rw [newline_of_paired hp hn]
    exact Text.paired_pair
  have htext := insertItem_text Paired.append Unbroken.paired hnewline unbroken m
  rw [hsource]
  exact ⟨hread', paired_applyAll hp (hkeeps _) (hslot.cleanAt_insertItem hp _)
    fun edit he => (htext edit he).1, newline_mem_applyAll hn fun edit he => (htext edit he).2⟩

/-- Writing a value anew keeps the line breaks paired. -/
theorem ValuePut.paired (h : ValuePut document document') (hread : document.IsRead)
    (hp : Paired document.source) : Paired document'.source := by
  obtain ⟨leads, unique, unbroken, splice_eq⟩ := h
  obtain ⟨hstart, hstop⟩ := cleanAt_value hread leads unique hp
  rw [(read_eq_ok_iff.1 splice_eq).1]
  exact paired_apply hp hstart hstop unbroken.paired

/-- **Pairs stay pairs.** Before each item there is still a line to break the new one like. -/
theorem Worked.paired (h : Worked document document') (hread : document.IsRead)
    (hp : Paired document.source) (hn : '\n' ∈ document.source) : Paired document'.source := by
  obtain ⟨document₁, hitems, hvalue⟩ := h
  have hpaired : document₁.IsRead ∧ Paired document₁.source ∧ '\n' ∈ document₁.source := by
    clear hvalue
    induction hitems with
    | refl => exact ⟨hread, hp, hn⟩
    | tail _ hput ih => exact hput.paired ih.1 ih.2.1 ih.2.2
  rcases hvalue with rfl | hvalue
  · exact hpaired.2.1
  · exact hvalue.paired hpaired.1 hpaired.2.1

/-- Edits without carriage returns put none in. -/
theorem return_not_mem_applyAll {source : Text} {edits : List Edit} (h : '\r' ∉ source)
    (hedits : ∀ edit ∈ edits, '\r' ∉ edit.text) : '\r' ∉ Edit.applyAll edits source := by
  induction edits generalizing source with
  | nil => exact h
  | cons edit edits ih =>
    obtain ⟨hedit, hedits⟩ := List.forall_mem_cons.1 hedits
    refine ih (fun hmem => ?_) hedits
    rcases List.mem_append.1 hmem with hmem | hmem
    · rcases List.mem_append.1 hmem with hmem | hmem
      · exact h (List.mem_of_mem_take hmem)
      · exact hedit hmem
    · exact h (List.mem_of_mem_drop hmem)

/-- **No carriage return comes in.** -/
theorem Worked.return_not_mem (h : Worked document document') (hr : '\r' ∉ document.source) :
    '\r' ∉ document'.source := by
  obtain ⟨document₁, hitems, hvalue⟩ := h
  have hnone : '\r' ∉ document₁.source := by
    clear hvalue
    induction hitems with
    | refl => exact hr
    | tail _ hput ih =>
      obtain ⟨-, unbroken, splice_eq⟩ := hput
      rw [(read_eq_ok_iff.1 splice_eq).1]
      refine return_not_mem_applyAll ih fun edit he => (insertItem_text (P := ('\r' ∉ ·))
        (fun hx hy => List.not_mem_append hx hy) And.left ?_ unbroken _ edit he).1
      rw [newline_of_not_mem ih]
      decide
  rcases hvalue with rfl | ⟨-, -, unbroken, splice_eq⟩
  · exact hnone
  · rw [(read_eq_ok_iff.1 splice_eq).1]
    exact return_not_mem_applyAll hnone (List.forall_mem_singleton.2 unbroken.1)

/-! ### The texts that are written -/

/-- A literal that stands for a text within a line is written within a line. -/
theorem unbroken_toSource {literal : Literal} (h : Unbroken literal.evaluated)
    (names : Script.Names) : Unbroken (literal.toSource names) := by
  cases literal with
  | string value =>
    have hescape : Unbroken (Literal.escape value) := by
      have hmem : ∀ c ∈ Literal.escape value, c = '\\' ∨ c ∈ value := by
        intro c hc
        obtain ⟨d, hd, hc⟩ := List.mem_flatMap.1 hc
        split at hc
        · simp only [List.mem_cons, List.not_mem_nil, or_false] at hc
          rcases hc with rfl | rfl
          · exact .inl rfl
          · exact .inr hd
        · exact .inr (List.mem_singleton.1 hc ▸ hd)
      exact ⟨fun hc => (hmem _ hc).elim (by decide) h.1, fun hc => (hmem _ hc).elim (by decide) h.2⟩
    exact (show Unbroken ['\x27'] by decide).append hescape |>.append (by decide)
  | classRef name =>
    refine Unbroken.append ?_ (by decide +kernel)
    split
    · exact h
    · exact (show Unbroken ['\\'] by decide).append h

/-- An item is written within a line if its key and its value are. -/
theorem unbroken_writtenItem (document : Document) {key : Literal} {value : Text}
    (hk : Unbroken key.evaluated) (hv : Unbroken value) :
    Unbroken (document.writtenItem key value) :=
  ((unbroken_toSource hk _).append (by decide +kernel)).append hv

/-- An empty literal is written within a line. -/
theorem unbroken_emptyLiteral (style : Script.ArrayStyle) : Unbroken style.emptyLiteral := by
  cases style <;> decide +kernel

/-! ### The operations -/

variable {path : SectionPath}

/-- Ensuring a section puts items in, one after the other. -/
theorem ensureWithin_itemPut (hpath : ∀ key ∈ path.keys, Unbroken key) (limit : Nat)
    (document : Document) :
    Relation.ReflTransGen ItemPut document (document.ensureWithin limit path).1 := by
  fun_induction ensureWithin limit path document with
  | case1 => exact .refl
  | case2 => exact .refl
  | case3 => exact .refl
  | case4 limit document parent reached key deeper hlocate hlimit item changed hsplice ih =>
    obtain ⟨shared, hkeys, -, hparent, -⟩ := walk_eq_missing_iff.1 hlocate
    have hkey : Unbroken (Literal.evaluated (.string key)) :=
      hpath key (hkeys ▸ List.mem_append_right _ List.mem_cons_self)
    exact .head ⟨hparent, unbroken_writtenItem document hkey (unbroken_emptyLiteral _), hsplice⟩ ih
  | case5 => exact .refl

/-- The section that is given back is where the path leads. -/
theorem leads_of_ensureWithin {limit : Nat} {m : ArrayLiteral}
    (h : document.ensureWithin limit path = (document', .ok m)) :
    Leads document' document'.file.root path.keys m := by
  fun_induction ensureWithin limit path document with
  | case1 => cases h
  | case2 limit document literal hlocate =>
    cases h
    exact walk_eq_found_iff.1 hlocate
  | case3 => cases h
  | case4 limit document parent reached key deeper hlocate hlimit item changed hsplice ih =>
    exact ih h
  | case5 => cases h

/-- Setting an entry in a section puts an item in or writes a value anew. -/
theorem setIn_worked {key value : Literal} (hm : Leads document document.file.root path.keys m)
    (hk : Unbroken key.evaluated) (hv : Unbroken value.evaluated) :
    Worked document (document.setIn m path key value).1 := by
  have hsame : Worked document document := ⟨document, .refl, .inl rfl⟩
  unfold setIn
  split
  · exact hsame
  · split
    · exact hsame
    · rename_i item hfind
      split
      · exact hsame
      · split
        · exact hsame
        · rename_i hsplice
          exact ⟨document, .refl,
            .inr ⟨hm, find?_eq_ok_iff.1 hfind, unbroken_toSource hv _, hsplice⟩⟩
    · simp only
      split
      · exact hsame
      · rename_i hsplice
        exact ⟨_, .single ⟨hm, unbroken_writtenItem document hk (unbroken_toSource hv _), hsplice⟩,
          .inl rfl⟩

end Document

namespace Operation

open Document (Worked)

variable {document : Document} {operation : Operation}

/-- The keys of the path and the literals are one line each. -/
def Unbroken : Operation → Prop
  | find _ => True
  | ensure path => ∀ key ∈ path.keys, Text.Unbroken key
  | set path key value => (∀ key ∈ path.keys, Text.Unbroken key) ∧
      Text.Unbroken key.evaluated ∧ Text.Unbroken value.evaluated

/-- **An operation puts items in and writes one value anew.** -/
theorem apply_worked (h : operation.Unbroken) : Worked document (operation.apply document).1 := by
  cases operation with
  | find path => exact ⟨document, .refl, .inl rfl⟩
  | ensure path => exact ⟨_, Document.ensureWithin_itemPut h _ document, .inl rfl⟩
  | set path key value =>
    obtain ⟨hpath, hk, hv⟩ := h
    have hitems := Document.ensureWithin_itemPut hpath path.keys.length document
    change Worked document (document.setEntry path key value).1
    cases hensure : document.ensure path with
    | mk document₁ result =>
      rw [← Document.ensure, hensure] at hitems
      cases result with
      | error e =>
        rw [Document.setEntry, hensure]
        exact ⟨document₁, hitems, .inl rfl⟩
      | ok m =>
        have hm := Document.leads_of_ensureWithin hensure
        obtain ⟨document₂, hput, hvalue⟩ := Document.setIn_worked hm hk hv
        rw [Document.setEntry, hensure]
        exact ⟨document₂, hitems.trans hput, hvalue⟩

/-- **Line breaks stay of one kind.** If each line of the text ends with a carriage return and a
newline, so does each line after an operation, also where the operation fails. If the text has no
carriage return, no run of operations brings one in. The keys and the literals must be one line
each. -/
theorem run_lineBreaks (hd : document.Reachable) :
    (∀ operation : Operation, operation.Unbroken → '\n' ∈ document.source →
      Text.Paired document.source → Text.Paired (operation.apply document).1.source) ∧
    ∀ operations : List Operation, (∀ operation ∈ operations, operation.Unbroken) →
      '\r' ∉ document.source → '\r' ∉ (run document operations).source := by
  refine ⟨fun operation hop hn hp => (apply_worked hop).paired hd.isRead hp hn,
    fun operations hops hr => ?_⟩
  clear hd
  induction operations generalizing document with
  | nil => exact hr
  | cons operation operations ih =>
    obtain ⟨hop, hops⟩ := List.forall_mem_cons.1 hops
    exact ih hops ((apply_worked hop).return_not_mem hr)

/-- An entry of a section that is created behind a comment, and one of the root in a document with
newlines alone. -/
theorem run_lineBreaks_behind_comment :
    let document := Document.ofText
      "<?php\r\nreturn [\r\n    'a' => 1, // one\r\n];\r\n".toList
    let unreturned := Document.ofText "<?php\nreturn [\n];\n".toList
    let operation : Operation := .set ⟨["b".toList]⟩ (.string "k".toList) (.classRef "A\\B".toList)
    document.Reachable ∧ operation.Unbroken ∧ '\n' ∈ document.source ∧
      Text.Paired document.source ∧ Text.Paired (operation.apply document).1.source ∧
      (operation.apply document).1.source = ("<?php\r\nreturn [\r\n    'a' => 1, // one\r\n" ++
        "    'b' => [\r\n        'k' => A\\B::class,\r\n    ],\r\n];\r\n").toList ∧
      unreturned.Reachable ∧ '\r' ∉ unreturned.source ∧
      '\r' ∉ (run unreturned [operation, operation]).source := by
  intro document unreturned operation
  have hd : document.Reachable := Document.ofText_reachable _
  have hu : unreturned.Reachable := Document.ofText_reachable _
  have hop : operation.Unbroken := ⟨by decide +kernel, by decide +kernel, by decide +kernel⟩
  have hn : '\n' ∈ document.source := by decide +kernel
  have hr : '\r' ∉ unreturned.source := by decide +kernel
  have hp : Text.Paired document.source := by
    have hlines : document.source = ['\r', '\n'].intercalate ["<?php".toList, "return [".toList,
        "    'a' => 1, // one".toList, "];".toList, []] := by decide +kernel
    rw [hlines]
    exact Text.paired_intercalate (by decide +kernel)
  have hops : ∀ other ∈ [operation, operation], other.Unbroken := by
    simp only [List.mem_cons, List.not_mem_nil, or_false, or_self]
    rintro _ rfl
    exact hop
  exact ⟨hd, hop, hn, hp, (run_lineBreaks hd).1 operation hop hn hp, by decide +kernel, hu, hr,
    (run_lineBreaks hu).2 _ hops hr⟩

end Operation
end Config
end Scaffold

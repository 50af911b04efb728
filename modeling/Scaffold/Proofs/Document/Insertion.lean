/-
# The text that an insertion leaves

A new item is put into the gap `g` between the text `a`, which ends with an opening bracket, a
comma or the last item, and the text `z`, which starts with the closing bracket. Wherever the
layout puts it, the item stands between two gaps, with a comma behind it or, after an item without
one, before it. The two gaps have the comments of `g`, and nothing but white space is taken away
(`insertIntoEmpty_fitted`, `insertAfter_fitted`).
-/

import Scaffold.Proofs.ClassName
import Scaffold.Proofs.Document.Place
import Scaffold.Proofs.Scan.Comments
import Scaffold.Proofs.Scan.Lossless

namespace Scaffold
namespace Config

open Script (Skipped Commented SameComments StartsToken isGap ArrayLiteral)

/-- The text `g` is the gap between the text `a` and the token that `z` starts with. -/
structure Slot (source a g z : Text) : Prop where
  source_eq : source = a ++ (g ++ z)
  gap : Skipped z g
  token : StartsToken z
  getLast?_ne : a.getLast? ≠ some '\r'

/-- The item has been put between `a` and `z`, after `sep` and before `tail`. -/
def Planned (sep tail a z item result : Text) : Prop :=
  ∃ g₁ g₂, result = a ++ (sep ++ (g₁ ++ (item ++ (tail ++ (g₂ ++ z))))) ∧
    (∀ w, Skipped w g₁) ∧ Skipped z g₂

/-- The gap `g` before `z` is made into two gaps: `g₁`, which may stand before every text, and `g₂`
before `z`. The comments of `g` are in them. -/
def Parted (z g g₁ g₂ : Text) : Prop :=
  ∃ cs cs₁ cs₂, Commented z g cs ∧ (∀ w, Commented w g₁ cs₁) ∧ Commented z g₂ cs₂ ∧
    SameComments cs (cs₁ ++ cs₂)

/-- The edits take nothing but white space away, and each changes the text before the last one. -/
structure KeepsText (source : Text) (edits : List Edit) : Prop where
  bounds : ∀ edit ∈ edits, edit.start ≤ edit.stop ∧ edit.stop ≤ source.length
  ordered : edits.Pairwise fun later earlier => earlier.stop ≤ later.start
  blank : ∀ edit ∈ edits, ∀ c ∈ source.slice edit.start edit.stop, isGap c = true

/-- The edits put the item between `a` and `z`, after `sep` and before `tail`, and part the gap
`g`. -/
structure Fitted (source sep tail a g z item : Text) (edits : List Edit) : Prop where
  parted : ∃ g₁ g₂, Edit.applyAll edits source =
    a ++ (sep ++ (g₁ ++ (item ++ (tail ++ (g₂ ++ z))))) ∧ Parted z g g₁ g₂
  keeps : KeepsText source edits

/-- Edits that fit put the item where it is planned. -/
theorem Fitted.planned {source sep tail a g z item : Text} {edits : List Edit}
    (h : Fitted source sep tail a g z item edits) :
    Planned sep tail a z item (Edit.applyAll edits source) := by
  obtain ⟨g₁, g₂, hresult, cs, cs₁, cs₂, -, h₁, h₂, -⟩ := h.parted
  exact ⟨g₁, g₂, hresult, fun w => (h₁ w).skipped, h₂.skipped⟩

/-! ### Line breaks and indentation -/

/-- A line break with a carriage return makes the document use carriage returns. -/
theorem usesCarriageReturn_append (x y : Text) :
    usesCarriageReturn (x ++ '\r' :: '\n' :: y) = true := by
  induction x with
  | nil => rfl
  | cons c x ih =>
    rw [List.cons_append, usesCarriageReturn, ih, Bool.or_true]

/-- A line break is a newline with a carriage return or without. -/
theorem newline_cases (source : Text) :
    ∃ cr, Script.OptionalReturn cr ∧ (Layout.detect source).newline = cr ++ ['\n'] := by
  unfold Layout.detect
  simp only
  split
  · exact ⟨['\r'], Or.inr rfl, rfl⟩
  · exact ⟨[], Or.inl rfl, rfl⟩

/-- Indentation is white space. -/
theorem isGap_of_isIndent {c : Char} (h : Text.isIndent c = true) : isGap c = true := by
  simp only [Text.isIndent, Bool.or_eq_true, beq_iff_eq] at h
  rcases h with rfl | rfl <;> rfl

/-- The unit of indentation is made of spaces or tabs. -/
theorem isIndent_indentUnit (source : Text) :
    ∀ c ∈ (Layout.detect source).indentUnit, Text.isIndent c = true := by
  unfold Layout.detect
  simp only
  split
  · exact List.forall_mem_singleton.2 rfl
  · intro c hc
    rw [List.eq_of_mem_replicate hc]
    rfl

/-- The indentation of a line is made of spaces or tabs. -/
theorem isIndent_lineIndent (source : Text) (offset : Nat) :
    ∀ c ∈ lineIndent source offset, Text.isIndent c = true :=
  fun _ hc => List.mem_takeWhile_imp hc

/-- One level further in than a line is indented. -/
theorem isIndent_innerIndent (source : Text) (offset : Nat) :
    ∀ c ∈ lineIndent source offset ++ (Layout.detect source).indentUnit,
      Text.isIndent c = true :=
  List.forall_mem_append.2 ⟨isIndent_lineIndent source offset, isIndent_indentUnit source⟩

/-- The indentation of an item is made of spaces or tabs. -/
theorem isIndent_itemIndent (source : Text) (literal : ArrayLiteral) :
    ∀ c ∈ itemIndent source literal (Layout.detect source), Text.isIndent c = true := by
  unfold itemIndent
  simp only
  generalize hown : List.findSome? _ _ = own
  cases own with
  | none => exact isIndent_innerIndent source literal.start
  | some before =>
    obtain ⟨item, -, hitem⟩ := List.exists_of_findSome?_eq_some hown
    obtain ⟨item, rfl, hif⟩ := Option.bind_eq_some_iff.1 hitem
    split at hif
    · rename_i hall
      cases hif
      exact List.all_eq_true.1 hall
    · cases hif

/-- A line break is white space. -/
theorem isGap_newline (source : Text) : ∀ c ∈ (Layout.detect source).newline, isGap c = true := by
  obtain ⟨cr, hcr, hnl⟩ := newline_cases source
  rw [hnl]
  rcases hcr with rfl | rfl <;> exact List.all_eq_true.1 rfl

/-- A new line and its indentation are white space. -/
theorem isGap_newLine (source : Text) {indent : Text}
    (hi : ∀ c ∈ indent, Text.isIndent c = true) :
    ∀ c ∈ (Layout.detect source).newline ++ indent, isGap c = true :=
  List.forall_mem_append.2 ⟨isGap_newline source, fun c hc => isGap_of_isIndent (hi c hc)⟩

/-! ### Parting a gap -/

namespace Parted

variable {z g h₁ h₂ : Text}

/-- White space is put before a gap. -/
theorem behind (h : Skipped z g) {blanks : Text} (hb : ∀ c ∈ blanks, isGap c = true) :
    Parted z g blanks g := by
  obtain ⟨cs, hcs, -, -⟩ := h.commented
  exact ⟨cs, [], cs, hcs, fun _ => .of_isGap hb, hcs, .refl cs⟩

/-- White space gives way to other white space. -/
theorem blank (hg : ∀ c ∈ g, isGap c = true) (hb₁ : ∀ c ∈ h₁, isGap c = true)
    (hb₂ : ∀ c ∈ h₂, isGap c = true) : Parted z g h₁ h₂ :=
  ⟨[], [], [], .of_isGap hg, fun _ => .of_isGap hb₁, .of_isGap hb₂, .refl []⟩

/-- The first gap may end with white space. -/
theorem append_blank {newline : Text} (h : Parted z g (h₁ ++ newline) h₂) {blanks : Text}
    (hb : ∀ c ∈ blanks, isGap c = true) : Parted z g (h₁ ++ (newline ++ blanks)) h₂ := by
  obtain ⟨cs, cs₁, cs₂, hcs, hcs₁, hcs₂, hsame⟩ := h
  refine ⟨cs, cs₁, cs₂, hcs, fun w => ?_, hcs₂, hsame⟩
  rw [← List.append_assoc, ← List.append_nil cs₁]
  exact (hcs₁ _).append (.of_isGap hb)

/-- A line break is put behind the gap, and other white space behind that. -/
theorem before (h : Skipped z g) (source : Text) {blanks : Text}
    (hb : ∀ c ∈ blanks, isGap c = true) :
    Parted z g (g ++ (Layout.detect source).newline) blanks := by
  obtain ⟨cs, hcs, -, hbreak⟩ := h.commented
  obtain ⟨cr, hcr, hnl⟩ := newline_cases source
  obtain ⟨cs', hsame, hnew⟩ := hbreak cr hcr
  exact ⟨cs, cs', [], hcs, fun w => hnl ▸ hnew w, .of_isGap hb, by rwa [List.append_nil]⟩

end Parted

/-- A line break in a gap may be repeated: the first part of the gap goes on with a new line. -/
theorem Slot.lineBreak {source a ga gb z : Text} (h : Slot source a (ga ++ '\n' :: gb) z)
    (ha : Skipped ('\n' :: (gb ++ z)) ga) (hb : Skipped z ('\n' :: gb)) :
    ∃ h₁ h₂, ga ++ '\n' :: gb = h₁ ++ h₂ ∧
      beforeCarriageReturn source (a.length + ga.length) = a.length + h₁.length ∧
      Parted z (ga ++ '\n' :: gb) (h₁ ++ (Layout.detect source).newline) h₂ := by
  have htake : source.take (a.length + ga.length) = a ++ ga := by
    rw [h.source_eq, List.append_assoc, ← List.append_assoc a, List.take_left']
    rw [List.length_append]
  obtain ⟨cs, hcs, -, hbreak⟩ := ha.commented
  obtain ⟨ds, hds, -, -⟩ := hb.commented
  have hgap : Commented z (ga ++ '\n' :: gb) (cs ++ ds) := hcs.append hds
  unfold beforeCarriageReturn
  rw [htake]
  split
  · rename_i hcr
    -- the new line is opened before the carriage return, which ends the line above it
    obtain ⟨h₁, e, rfl⟩ : ∃ h₁ e, ga = h₁ ++ [e] := by
      rcases List.eq_nil_or_concat ga with rfl | ⟨h₁, e, he⟩
      · rw [List.append_nil] at hcr
        exact absurd hcr h.getLast?_ne
      · exact ⟨h₁, e, he.trans (List.concat_eq_append ..)⟩
    rw [← List.append_assoc, List.getLast?_concat, Option.some.injEq] at hcr
    subst hcr
    have hnl : (Layout.detect source).newline = ['\r', '\n'] := by
      refine if_pos ?_
      rw [h.source_eq]
      simp only [List.append_assoc, List.cons_append, List.nil_append]
      rw [← List.append_assoc]
      exact usesCarriageReturn_append _ _
    obtain ⟨cs', hsame, hnew⟩ := hbreak [] (Or.inl rfl)
    refine ⟨h₁, '\r' :: '\n' :: gb, by simp, by simp, cs ++ ds, cs', ds, hgap, fun w => ?_,
      hds.cons_blank rfl, hsame.append (.refl ds)⟩
    rw [hnl]
    simpa using hnew w
  · obtain ⟨cr, hcr, hnl⟩ := newline_cases source
    obtain ⟨cs', hsame, hnew⟩ := hbreak cr hcr
    exact ⟨ga, '\n' :: gb, rfl, rfl, cs ++ ds, cs', ds, hgap, fun w => hnl ▸ hnew w, hds,
      hsame.append (.refl ds)⟩

/-! ### Edits that keep the text -/

/-- An insertion takes nothing away. -/
theorem keepsText_insert {source : Text} {place : Nat} (h : place ≤ source.length) (text : Text) :
    KeepsText source [.insert place text] where
  bounds := List.forall_mem_singleton.2 ⟨Nat.le_refl _, h⟩
  ordered := List.pairwise_singleton _ _
  blank := List.forall_mem_singleton.2 fun c hc => by
    rw [Edit.insert, Script.slice_self] at hc
    cases hc

/-- What is inserted stands at its place. -/
theorem insert_apply (a b c text : Text) :
    (Edit.insert (a.length + b.length) text).apply (a ++ (b ++ c)) = a ++ (b ++ (text ++ c)) := by
  have hlen : (a ++ b).length = a.length + b.length := List.length_append
  unfold Edit.insert Edit.apply
  rw [← hlen, ← List.append_assoc a b c, List.take_left, List.drop_left]
  simp only [List.append_assoc]

namespace Slot

variable {source a g z : Text}

/-- The gap of a place is the slice between its ends. -/
theorem slice_eq (h : Slot source a g z) : source.slice a.length (a ++ g).length = g := by
  rw [h.source_eq, ← List.append_assoc]
  unfold Text.slice
  rw [List.append_assoc, List.drop_left, List.take_left']
  rw [List.length_append]
  omega

/-- A line that ends in a gap with nothing or a line comment can be followed by another. -/
theorem endOfLine (h : Slot source a g z) : ∃ h₁ h₂, g = h₁ ++ h₂ ∧
    Config.endOfLine source a.length (a ++ g).length = a.length + h₁.length ∧
    Parted z g (h₁ ++ (Layout.detect source).newline) h₂ := by
  unfold Config.endOfLine
  rw [h.slice_eq]
  simp only
  split
  · rename_i hline
    obtain ⟨hlen, hshown⟩ := hline
    obtain ⟨rest, hg⟩ : ∃ rest, g = g.takeWhile (· != '\n') ++ '\n' :: rest := by
      have hsplit := List.takeWhile_append_dropWhile (p := (· != '\n')) (l := g)
      cases hd : g.dropWhile (· != '\n') with
      | nil =>
        rw [hd, List.append_nil] at hsplit
        rw [hsplit] at hlen
        exact absurd hlen (Nat.lt_irrefl _)
      | cons c rest =>
        have hc := List.head?_dropWhile_not (· != '\n') g
        rw [hd] at hc hsplit
        obtain rfl : c = '\n' := by simpa using hc
        exact ⟨rest, hsplit.symm⟩
    have hnot : '\n' ∉ g.takeWhile (· != '\n') := by
      intro hn
      exact absurd (List.mem_takeWhile_imp hn) (by simp)
    generalize g.takeWhile (· != '\n') = line at hg hnot hshown
    subst hg
    obtain ⟨ha, hb⟩ := endOfLine_split h.gap h.token hnot hshown
    exact h.lineBreak ha hb
  · exact ⟨[], g, rfl, rfl, .behind h.gap (isGap_newline source)⟩

/-- What `trim` finds nothing in is white space. -/
theorem isBlank_of_trim {text : Text} (h : (Text.trim text).isEmpty = true) :
    ∀ c ∈ text, isBlank c = true := by
  intro c hc
  rw [List.isEmpty_iff, Text.trim, Text.trimBoth, Text.dropEndWhile, List.reverse_eq_nil_iff] at h
  have hnone := List.dropWhile_eq_nil_iff.1 h
  by_contra hblank
  have hkept : c ∈ text.dropWhile isBlank := by
    have hsplit := List.takeWhile_append_dropWhile (p := isBlank) (l := text)
    rw [← hsplit] at hc
    rcases List.mem_append.1 hc with hc | hc
    · exact absurd (List.mem_takeWhile_imp hc) hblank
    · exact hc
  exact hblank (hnone c (List.mem_reverse.2 hkept))

/-- A gap without a comment is white space of the language. -/
theorem isGap_of_skipped {z g : Text} (h : Skipped z g) (hb : ∀ c ∈ g, isBlank c = true) :
    ∀ c ∈ g, isGap c = true := by
  obtain ⟨gs, hgs, hgk⟩ := h
  induction hgs with
  | nil => exact fun c hc => absurd hc List.not_mem_nil
  | @cons c more u kind ps step inside later ih =>
    obtain ⟨hk, hps⟩ := List.forall_mem_cons.1 hgk
    obtain ⟨hc, hmore⟩ := List.forall_mem_cons.1 hb
    rcases Script.pieceShape_gap step hk with ⟨-, hlen, hgap⟩ | ⟨-, rfl | rfl⟩
    · obtain rfl := List.length_eq_zero_iff.1 hlen
      exact List.forall_mem_cons.2 ⟨hgap, ih hmore hps⟩
    · cases hc
    · cases hc

/-- A place lies within the source text. -/
theorem length_le (h : Slot source a g z) : (a ++ g).length ≤ source.length := by
  rw [h.source_eq, ← List.append_assoc]
  exact (List.prefix_append _ _).length_le

/-- A single insertion puts the item behind `h₁`, a part of the gap. -/
theorem insert_fitted (h : Slot source a g z) (sep tail behind : Text) {h₁ h₂ blanks : Text}
    (hg : g = h₁ ++ h₂) (hsep : sep = [] ∨ h₁ = [])
    (hparted : Parted z g (h₁ ++ blanks) (behind ++ h₂)) (item : Text) :
    Fitted source sep tail a g z item
      [.insert (a.length + h₁.length) (sep ++ (blanks ++ (item ++ (tail ++ behind))))] := by
  have hsource : source = a ++ (h₁ ++ (h₂ ++ z)) := by
    rw [h.source_eq, hg, List.append_assoc]
  refine ⟨⟨h₁ ++ blanks, behind ++ h₂, ?_, hparted⟩, keepsText_insert ?_ _⟩
  · rw [Edit.applyAll, List.foldl_cons, List.foldl_nil, hsource, insert_apply]
    rcases hsep with rfl | rfl <;> simp only [List.append_assoc, List.nil_append]
  · have := h.length_le
    rw [hg, List.length_append, List.length_append] at this
    omega

/-- The item is put before the gap. -/
theorem insert_behind_fitted (h : Slot source a g z) (sep tail : Text) {blanks : Text}
    (hb : ∀ c ∈ blanks, isGap c = true) (item : Text) :
    Fitted source sep tail a g z item
      [.insert a.length (sep ++ (blanks ++ (item ++ tail)))] := by
  have hfitted := h.insert_fitted sep tail [] (List.nil_append g).symm (Or.inr rfl)
    (.behind h.gap hb) item
  rwa [List.append_nil] at hfitted

/-- The item is put behind `h₁`, a part of the gap, and a comma before the gap. -/
theorem insert_apart_fitted (h : Slot source a g z) {h₁ h₂ blanks : Text} (hg : g = h₁ ++ h₂)
    (hparted : Parted z g (h₁ ++ blanks) h₂) (item : Text) :
    Fitted source [','] [] a g z item
      [.insert (a.length + h₁.length) (blanks ++ item), .insert a.length [',']] := by
  have hsource : source = a ++ (h₁ ++ (h₂ ++ z)) := by
    rw [h.source_eq, hg, List.append_assoc]
  have hlength := h.length_le
  rw [hg, List.length_append, List.length_append] at hlength
  have hcomma : ∀ text : Text, (Edit.insert a.length [',']).apply (a ++ text) =
      a ++ ([','] ++ text) := fun text => insert_apply a [] text [',']
  refine ⟨⟨h₁ ++ blanks, h₂, ?_, hparted⟩, ?_, ?_, ?_⟩
  · rw [Edit.applyAll, List.foldl_cons, List.foldl_cons, List.foldl_nil, hsource, insert_apply,
      hcomma]
    simp only [List.append_assoc, List.nil_append]
  · refine List.forall_mem_cons.2 ⟨⟨Nat.le_refl _, ?_⟩, List.forall_mem_singleton.2
      ⟨Nat.le_refl _, ?_⟩⟩ <;> simp only [Edit.insert] <;> omega
  · exact List.pairwise_pair.2 (Nat.le_add_right _ _)
  · refine List.forall_mem_cons.2 ⟨?_, List.forall_mem_singleton.2 ?_⟩ <;>
      rw [Edit.insert, Script.slice_self] <;> exact fun c hc => absurd hc List.not_mem_nil

/-- A gap of white space gives way to the item, between white space. -/
theorem replace_fitted (h : Slot source a g z) (tail : Text) {h₁ h₂ : Text}
    (hg : ∀ c ∈ g, isGap c = true) (hb₁ : ∀ c ∈ h₁, isGap c = true) (hb₂ : ∀ c ∈ h₂, isGap c = true)
    (item : Text) :
    Fitted source [] tail a g z item
      [⟨a.length, (a ++ g).length, h₁ ++ (item ++ (tail ++ h₂))⟩] := by
  have htake : source.take a.length = a := by
    rw [h.source_eq, List.take_left]
  have hdrop : source.drop (a ++ g).length = z := by
    rw [h.source_eq, ← List.append_assoc, List.drop_left]
  refine ⟨⟨h₁, h₂, ?_, .blank hg hb₁ hb₂⟩, List.forall_mem_singleton.2 ⟨?_, h.length_le⟩,
    List.pairwise_singleton _ _, List.forall_mem_singleton.2 ?_⟩
  · rw [Edit.applyAll, List.foldl_cons, List.foldl_nil, Edit.apply, htake, hdrop]
    simp only [List.append_assoc, List.nil_append]
  · exact (List.prefix_append a g).length_le
  · rw [h.slice_eq]
    exact hg

/-- **An item in an empty literal stands between two gaps, with a comma behind it.** -/
theorem insertIntoEmpty_fitted (h : Slot source a g z) {literal : ArrayLiteral}
    (ho : literal.openStop = a.length) (hc : literal.close = (a ++ g).length) (item : Text) :
    Fitted source [] [','] a g z item (insertIntoEmpty source literal item) := by
  have hbody : literal.body source = g := by
    unfold ArrayLiteral.body
    rw [ho, hc, h.slice_eq]
  have hindent := isIndent_innerIndent source literal.start
  have houter := isGap_newLine source (isIndent_lineIndent source literal.start)
  obtain ⟨ga, gb, hg, ha, hb, hend⟩ := Script.lastCommentEnd_split h.gap
  have hlast : Script.lastCommentEnd source literal.openStop literal.close = (a ++ ga).length := by
    rw [ho, hc, h.source_eq, hend]
  have hafter : source.slice (a ++ ga).length literal.close = gb := by
    have hslice := Script.slice_of_append (a ++ ga) gb z
    rwa [← List.length_append, List.append_assoc, List.append_assoc, ← List.append_assoc ga, ← hg,
      ← h.source_eq, ← hc] at hslice
  unfold insertIntoEmpty
  simp only [hbody, hlast, hafter]
  split
  · rename_i blanks hblanks
    obtain ⟨rest, rfl⟩ : ∃ rest, gb = blanks ++ '\n' :: rest :=
      ⟨_, Text.eq_append_of_beforeLast? hblanks⟩
    subst hg
    have hskip : ∀ c ∈ blanks, isGap c = true := fun c hc => hb c (List.mem_append_left _ hc)
    have hbreak : Slot source a ((ga ++ blanks) ++ '\n' :: rest) z := by
      rwa [List.append_assoc]
    obtain ⟨h₁, h₂, he, hplace, hparted⟩ := hbreak.lineBreak
      (Skipped.append (by simpa using ha) (.of_isGap hskip))
      (.of_isGap fun c hc => hb c (List.mem_append_right _ hc))
    have hfitted := hbreak.insert_fitted [] [','] [] he (Or.inl rfl)
      (hparted.append_blank fun c hc => isGap_of_isIndent (hindent c hc)) item
    rw [List.length_append, Nat.add_assoc, ← List.length_append, hplace, ← List.append_assoc ga]
    simpa only [List.append_assoc, List.nil_append, List.append_nil] using hfitted
  · split
    · rename_i htrim
      have hblank := isGap_of_skipped h.gap (isBlank_of_trim htrim)
      have hfitted :=
        h.replace_fitted [','] hblank (isGap_newLine source hindent) houter item
      rw [ho, hc]
      simpa only [List.append_assoc] using hfitted
    · have hparted := (Parted.before h.gap source houter).append_blank
        fun c hc => isGap_of_isIndent (hindent c hc)
      rw [← List.append_nil ((Layout.detect source).newline ++ lineIndent _ _)] at hparted
      have hfitted :=
        h.insert_fitted [] [','] _ (List.append_nil g).symm (Or.inl rfl) hparted item
      rw [hc, List.length_append]
      simpa only [List.append_assoc, List.nil_append, List.append_nil] using hfitted

/-- **An item after another stands between two gaps.** It takes the comma of the other one over,
before it where there was none. -/
theorem insertAfter_fitted (h : Slot source a g z) {literal : ArrayLiteral} {last : Script.Item}
    (hc : literal.close = (a ++ g).length)
    (hlast : ∀ comma, last.comma = some comma → comma + 1 = a.length)
    (hstop : last.comma = none → last.stop = a.length) (item : Text) :
    (last.comma.isSome ∧
      Fitted source [] [','] a g z item (insertAfter source literal last item)) ∨
    (last.comma = none ∧
      Fitted source [','] [] a g z item (insertAfter source literal last item)) := by
  have hindent := isIndent_itemIndent source literal
  obtain ⟨h₁, h₂, hg, hplace, hparted⟩ := h.endOfLine
  have hline := hparted.append_blank fun c hc => isGap_of_isIndent (hindent c hc)
  unfold insertAfter
  simp only
  split
  · cases hcomma : last.comma with
    | some comma =>
      refine Or.inl ⟨rfl, ?_⟩
      simp only [hlast comma hcomma, hc, hplace]
      have hfitted := h.insert_fitted [] [','] [] hg (Or.inl rfl) hline item
      simpa only [List.append_assoc, List.nil_append, List.append_nil] using hfitted
    | none =>
      refine Or.inr ⟨rfl, ?_⟩
      simp only [hstop hcomma, hc, hplace]
      split
      · rename_i hfirst
        rw [hfirst]
        have hfitted := h.insert_behind_fitted [','] [] (isGap_newLine source hindent) item
        simpa only [List.append_assoc, List.nil_append, List.append_nil, List.singleton_append]
          using hfitted
      · exact h.insert_apart_fitted hg hline item
  · have hblank : ∀ c ∈ [' '], isGap c = true := List.forall_mem_singleton.2 rfl
    cases hcomma : last.comma with
    | some comma =>
      refine Or.inl ⟨rfl, ?_⟩
      simp only [hlast comma hcomma]
      exact h.insert_behind_fitted [] [','] hblank item
    | none =>
      refine Or.inr ⟨rfl, ?_⟩
      simp only [hstop hcomma]
      have hfitted := h.insert_behind_fitted [','] [] hblank item
      rwa [List.append_nil] at hfitted

end Slot

end Config
end Scaffold

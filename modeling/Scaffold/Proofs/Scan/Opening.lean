/-
# The head of a source text

Whether a source text starts with an opening tag is decided by its first characters. A program
that holds a `return` is long enough for that: an edit after the `return` neither makes nor breaks
an opening tag. So the pieces before the edit are the same (`scan_split`).
-/

import Scaffold.Proofs.Scan.Gap

namespace Scaffold
namespace Script

/-- A piece that is the word `return`. -/
def Piece.IsReturn (p : Piece) : Prop :=
  p.kind = .token .word ∧ Text.equalsIgnoringCase p.text "return".toList = true

/-- White space is no capital letter. -/
theorem isBlank_toLower {c : Char} (h : isBlank c = true) : c.toLower = c := by
  have hc : ¬(65 ≤ c.toNat ∧ c.toNat ≤ 90) := by
    rintro ⟨h1, h2⟩
    simp only [isBlank, Bool.or_eq_true, Bool.and_eq_true, decide_eq_true_eq, beq_iff_eq] at h
    omega
  unfold Char.toLower
  split
  · rename_i hu
    exact absurd ⟨UInt32.le_iff_toNat_le.1 hu.1, UInt32.le_iff_toNat_le.1 hu.2⟩ hc
  · rfl

/-- What becomes no small letter has been the same before. -/
theorem eq_of_toLower_eq {c d : Char} (h : c.toLower = d) (hd : d.toNat < 97 ∨ 122 < d.toNat) :
    c = d := by
  unfold Char.toLower at h
  split at h
  · rename_i hupper
    -- a letter becomes a letter
    have hlow : 65 ≤ c.toNat := UInt32.le_iff_toNat_le.1 hupper.1
    have hhigh : c.toNat ≤ 90 := UInt32.le_iff_toNat_le.1 hupper.2
    have hvalue : d.toNat = (c.toNat + 32) % 4294967296 := by
      rw [← h]
      exact UInt32.toNat_add ..
    omega
  · exact h

/-- The word `return` has six characters, and the first is no white space and no separate mark. -/
theorem Piece.IsReturn.text {p : Piece} (h : p.IsReturn) :
    ∃ c more, p.text = c :: more ∧ more.length = 5 ∧ isBlank c = false ∧ c.toLower = 'r' := by
  have he : p.text.map Char.toLower = "return".toList := by
    simpa [Text.equalsIgnoringCase] using h.2
  have hlen := congrArg List.length he
  rw [List.length_map] at hlen
  obtain ⟨c, more, hp⟩ : ∃ c more, p.text = c :: more := by
    cases hp : p.text with
    | nil => rw [hp] at hlen; cases hlen
    | cons c more => exact ⟨c, more, rfl⟩
  rw [hp] at he hlen
  have hc : c.toLower = 'r' := (List.cons.inj he).1
  refine ⟨c, more, hp, Nat.succ.inj hlen, ?_, hc⟩
  rw [Bool.eq_false_iff]
  intro hb
  rw [isBlank_toLower hb] at hc
  subst hc
  exact absurd hb (by decide)

/-! ### The first line -/

/-- The length of a byte order mark, where one stands. -/
def markLength (source : Text) : Nat := if source.head? = some '\uFEFF' then 1 else 0

/-- The first line, behind a byte order mark. -/
theorem shebangLength_eq (source : Text) :
    shebangLength source =
      if (source.drop (markLength source)).take 2 = ['#', '!'] then
        markLength source + ((source.drop (markLength source)).takeWhile (· != '\n')).length + 1
      else markLength source := rfl

/-- The first line starts behind the byte order mark. -/
theorem markLength_le_shebangLength (source : Text) : markLength source ≤ shebangLength source := by
  rw [shebangLength_eq]
  split <;> omega

/-- A first line that ends well within `x` does not depend on what follows `x`. -/
theorem shebangLength_append {x v : Text} (h : shebangLength (x ++ v) + 2 ≤ x.length) (w : Text) :
    shebangLength (x ++ w) = shebangLength (x ++ v) := by
  have hmark : ∀ z, markLength (x ++ z) = markLength x := by
    intro z
    cases x with
    | nil => rw [List.length_nil] at h; omega
    | cons c x => rfl
  have hle : markLength x + 2 ≤ x.length := by
    have := markLength_le_shebangLength (x ++ v)
    rw [hmark] at this
    omega
  have hdrop : ∀ z, (x ++ z).drop (markLength x) = x.drop (markLength x) ++ z :=
    fun z => List.drop_append_of_le_length (by omega)
  have hlen : (x.drop (markLength x)).length = x.length - markLength x := List.length_drop ..
  rw [shebangLength_eq, hmark, hdrop] at h ⊢
  rw [shebangLength_eq, hmark, hdrop]
  generalize x.drop (markLength x) = y at hlen h ⊢
  have htake : ∀ z, (y ++ z).take 2 = y.take 2 :=
    fun z => List.take_append_of_le_length (by omega)
  rw [htake] at h ⊢
  rw [htake]
  split
  · rename_i hs
    rw [if_pos hs] at h
    have hne : (y.takeWhile (· != '\n')).length ≠ y.length := by
      intro he
      rw [List.takeWhile_append, if_pos he, List.length_append] at h
      omega
    rw [List.takeWhile_append, List.takeWhile_append, if_neg hne, if_neg hne]
  · rfl

/-- A run of characters ends before a character that does not belong to it. -/
theorem length_takeWhile_append_cons_le {p : Char → Bool} (a : Text) {c : Char} (hc : p c = false)
    (b : Text) : ((a ++ c :: b).takeWhile p).length ≤ a.length := by
  rw [List.takeWhile_append]
  split
  · rw [List.takeWhile_cons_of_neg (by rw [hc]; exact Bool.false_ne_true), List.append_nil]
  · exact (List.takeWhile_prefix _).length_le

/-- Where a line comment ends and the program goes on, a line ends. -/
theorem Cut.head_newline {u v : Text} {ps : List Piece} (h : Cut v u ps) (hne : ps ≠ [])
    (h0 : lineCommentLength (u ++ v) = 0) :
    ∃ w qs, u = '\n' :: w ∧ ps = ⟨.blank, ['\n']⟩ :: qs := by
  cases h with
  | nil => exact absurd rfl hne
  | @cons c more u kind ps step inside later =>
    rw [List.cons_append, List.append_assoc, lineCommentLength] at h0
    split at h0
    · rename_i hc
      rcases hc with rfl | ⟨rfl, hc⟩
      · rw [pieceAt_of_isGap rfl] at step
        injection step with step
        obtain ⟨rfl, hlen⟩ := Prod.mk.inj step
        obtain rfl := List.length_eq_zero_iff.1 hlen.symm
        exact ⟨u, ps, rfl, rfl⟩
      · exfalso
        cases hw : more ++ (u ++ v) with
        | nil => rw [hw] at hc; cases hc
        | cons d w =>
          rw [hw] at hc step
          cases hc
          injection step with step
          exact inside (Prod.mk.inj step).1.symm
    · cases h0

/-- A line that names an interpreter is a comment for the scanner, so it ends before any word. -/
theorem interpreterLine_le {u v : Text} {ps qs : List Piece} {r : Piece}
    (h : Cut v u (ps ++ r :: qs)) (hr : r.kind = .token .word)
    (hs : (u ++ v).take 2 = ['#', '!']) :
    ((u ++ v).takeWhile (· != '\n')).length + 1 ≤ (textOf ps).length := by
  obtain ⟨rest, hrest⟩ : ∃ rest, u ++ v = '#' :: '!' :: rest := by
    refine ⟨(u ++ v).drop 2, ?_⟩
    have := List.take_append_drop 2 (u ++ v)
    rw [hs] at this
    exact this.symm
  generalize hall : ps ++ r :: qs = all at h
  cases h with
  | nil => exact absurd hall (by simp)
  | @cons c more u kind later step inside hlater =>
    rw [List.cons_append, List.append_assoc] at hrest ⊢
    obtain ⟨rfl, hmore⟩ := List.cons.inj hrest
    obtain ⟨rfl, hlen⟩ : PieceKind.comment = kind ∧
        lineCommentLength (more ++ (u ++ v)) = more.length := by
      rw [hmore] at step ⊢
      have hcomment : pieceAt '#' ('!' :: rest) = .ok (.comment, lineCommentLength ('!' :: rest)) :=
        rfl
      rw [hcomment, Except.ok.injEq] at step
      exact Prod.mk.inj step
    cases ps with
    | nil =>
      obtain ⟨rfl, -⟩ := List.cons.inj hall
      cases hr
    | cons p ps =>
      obtain ⟨rfl, rfl⟩ := List.cons.inj hall
      obtain ⟨w, rs, rfl, hps⟩ := hlater.head_newline (by simp) (lineCommentLength_eq_zero hlen)
      cases ps with
      | nil =>
        obtain ⟨rfl, -⟩ := List.cons.inj hps
        cases hr
      | cons p' ps =>
        obtain ⟨rfl, rfl⟩ := List.cons.inj hps
        have := length_takeWhile_append_cons_le (p := (· != '\n')) ('#' :: more) (c := '\n')
          rfl (w ++ v)
        simp only [List.cons_append, textOf_cons, List.length_cons, List.length_append] at this ⊢
        simp only [List.length_nil] at this ⊢
        omega

/-- The first line ends before a `return`. -/
theorem shebangLength_le {u v : Text} {ps qs : List Piece} {r : Piece}
    (h : Cut v u (ps ++ r :: qs)) (hr : r.IsReturn) :
    shebangLength (u ++ v) ≤ (textOf ps).length := by
  by_cases hm : (u ++ v).head? = some '\uFEFF'
  · have hmark : markLength (u ++ v) = 1 := if_pos hm
    generalize hall : ps ++ r :: qs = all at h
    cases h with
    | nil => exact absurd hall (by simp)
    | @cons c more u kind later step inside hlater =>
      rw [List.cons_append, List.append_assoc] at hm hmark ⊢
      obtain rfl : c = '\uFEFF' := by simpa using hm
      cases ps with
      | nil =>
        obtain ⟨rfl, -⟩ := List.cons.inj hall
        obtain ⟨c, rest, ht, -, -, hc⟩ := hr.text
        cases ht
        exact absurd hc (by decide)
      | cons p ps =>
        obtain ⟨rfl, rfl⟩ := List.cons.inj hall
        rw [shebangLength_eq, hmark, List.drop_succ_cons, List.drop_zero]
        split
        · rename_i hs
          -- the mark is a word of its own, as an interpreter's line starts with no word character
          have hmore : more = [] := by
            cases more with
            | nil => rfl
            | cons d more =>
              rw [List.cons_append, List.take_succ_cons] at hs
              obtain rfl := (List.cons.inj hs).1
              have hword : pieceAt '\uFEFF' ('#' :: (more ++ (u ++ v))) = .ok (.token .word, 0) :=
                rfl
              rw [List.cons_append, hword, Except.ok.injEq] at step
              cases (Prod.mk.inj step).2
          subst hmore
          have := interpreterLine_le hlater hr.1 hs
          simp only [List.nil_append, textOf_cons, List.length_append, List.length_cons,
            List.length_nil]
          omega
        · simp only [textOf_cons, List.length_append, List.length_cons]
          omega
  · have hmark : markLength (u ++ v) = 0 := if_neg hm
    rw [shebangLength_eq, hmark, List.drop_zero]
    split
    · rename_i hs
      have := interpreterLine_le h hr.1 hs
      omega
    · exact Nat.zero_le _

/-! ### The opening tag -/

/-- A text that does not only consist of a run goes on behind it whatever follows. -/
theorem dropWhile_append_of_ne_nil {p : Char → Bool} {x : Text} (h : x.dropWhile p ≠ [])
    (w : Text) :
    (x ++ w).dropWhile p = x.dropWhile p ++ w ∧ (x ++ w).takeWhile p = x.takeWhile p := by
  have hlen : (x.takeWhile p).length ≠ x.length := by
    intro he
    have hx := List.takeWhile_append_dropWhile (p := p) (l := x)
    have hd : (x.dropWhile p).length = 0 := by
      have := congrArg List.length hx
      rw [List.length_append] at this
      omega
    exact h (List.length_eq_zero_iff.1 hd)
  constructor
  · rw [List.dropWhile_append, if_neg (by simpa using h)]
  · rw [List.takeWhile_append, if_neg hlen]

/-- Whether a text starts with an opening tag is decided by what it starts with: a first line, and
six characters after the white space behind it. -/
theorem openTag?_append {x v : Text} (hs : shebangLength (x ++ v) + 2 ≤ x.length)
    (hb : 6 ≤ ((x.drop (shebangLength (x ++ v))).dropWhile isBlank).length) :
    ∃ o : Option (Text × Text × Text), ∀ w,
      openTag? (x ++ w) = o.map fun t => (t.1, t.2.1, t.2.2 ++ w) := by
  have hw : ∀ w, shebangLength (x ++ w) = shebangLength (x ++ v) := shebangLength_append hs
  generalize shebangLength (x ++ v) = k at hs hb hw
  generalize hy : (x.drop k).dropWhile isBlank = y at hb
  refine ⟨if Text.equalsIgnoringCase (y.take 5) "<?php".toList && (y.drop 5).head?.all isAsciiBlank
    then some (x.take k ++ (x.drop k).takeWhile isBlank, y.take 5, y.drop 5) else none, fun w => ?_⟩
  have hne : (x.drop k).dropWhile isBlank ≠ [] := by
    rw [hy]
    exact List.ne_nil_of_length_pos (by omega)
  obtain ⟨hdrop, htake⟩ := dropWhile_append_of_ne_nil hne w
  have hhead : ((y ++ w).drop 5).head? = (y.drop 5).head? := by
    rw [List.drop_append_of_le_length (by omega)]
    obtain ⟨c, z, hz⟩ := List.exists_cons_of_length_pos (l := y.drop 5)
      (by rw [List.length_drop]; omega)
    rw [hz]
    rfl
  unfold openTag?
  simp only [hw]
  rw [List.drop_append_of_le_length (by omega), hdrop, hy, hhead, htake,
    List.take_append_of_le_length (by omega), List.take_append_of_le_length (by omega),
    List.drop_append_of_le_length (by omega)]
  split <;> rfl

/-! ### The program after its head -/

/-- A `return` and what stands before it are text enough to tell an opening tag. -/
theorem openTag?_append_of_isReturn {u v : Text} {ps qs : List Piece} {r : Piece}
    (h : Cut v u (ps ++ r :: qs)) (hr : r.IsReturn) :
    ∃ o : Option (Text × Text × Text), ∀ w,
      openTag? (u ++ w) = o.map fun t => (t.1, t.2.1, t.2.2 ++ w) := by
  have hs := shebangLength_le h hr
  have hu := h.textOf_eq
  obtain ⟨c, more, ht, hlen, hc, -⟩ := hr.text
  rw [textOf_append, textOf_cons, ht] at hu
  refine openTag?_append (v := v) ?_ ?_
  · have := congrArg List.length hu
    simp only [List.length_append, List.length_cons] at this
    omega
  · generalize shebangLength (u ++ v) = k at hs ⊢
    rw [← hu, List.drop_append_of_le_length hs, List.dropWhile_append]
    split
    · rw [List.cons_append,
        List.dropWhile_cons_of_neg (Bool.eq_false_iff.1 hc)]
      simp only [List.length_append, List.length_cons]
      omega
    · simp only [List.length_append, List.length_cons]
      omega

/-- What stands before an opening tag is a first line and white space. -/
theorem openTag?_spec {source before tag rest : Text}
    (h : openTag? source = some (before, tag, rest)) :
    ∃ line blanks c more, before = line ++ blanks ∧ line.length = shebangLength source ∧
      (∀ b ∈ blanks, isBlank b = true) ∧ tag = c :: more ∧ more.length = 4 ∧ isBlank c = false := by
  simp only [openTag?, Option.ite_none_right_eq_some, Option.some.injEq, Prod.mk.injEq,
    Bool.and_eq_true] at h
  generalize shebangLength source = k at h ⊢
  obtain ⟨⟨hname, -⟩, rfl, rfl, -⟩ := h
  have hlen := congrArg List.length (beq_iff_eq.1 hname)
  rw [List.length_map, List.length_map] at hlen
  cases hd : (source.drop k).dropWhile isBlank with
  | nil =>
    rw [hd] at hlen
    cases hlen
  | cons c opened =>
    have hk : (source.take k).length = k := by
      refine List.length_take_of_le ?_
      by_contra hlt
      rw [List.drop_eq_nil_of_le (by omega)] at hd
      cases hd
    have hc : isBlank c ≠ true := by
      have := List.head?_dropWhile_not isBlank (source.drop k)
      rw [hd] at this
      simpa using this
    rw [hd] at hlen
    exact ⟨_, _, c, opened.take 4, rfl, hk, fun b hb => List.mem_takeWhile_imp hb, rfl,
      Nat.succ.inj hlen, Bool.eq_false_iff.2 hc⟩

/-- An opening tag is found whatever stands behind the first characters that follow it. -/
theorem openTag?_split {source before tag rest : Text}
    (h : openTag? source = some (before, tag, rest)) {u v : Text} (hrest : rest = u ++ v)
    (hu : u ≠ []) (w : Text) :
    openTag? (before ++ (tag ++ (u ++ w))) = some (before, tag, u ++ w) := by
  have hsource := append_of_openTag? h
  have hu' : 0 < u.length := List.length_pos_iff.2 hu
  obtain ⟨line, blanks, c, more, hbefore, hline, hblanks, htag, hmore, hc⟩ := openTag?_spec h
  obtain ⟨o, ho⟩ : ∃ o : Option (Text × Text × Text), ∀ z,
      openTag? (before ++ (tag ++ u) ++ z) = o.map fun t => (t.1, t.2.1, t.2.2 ++ z) := by
    have hx : before ++ (tag ++ u) ++ v = source := by
      rw [← hsource, hrest, List.append_assoc, List.append_assoc]
    refine openTag?_append (v := v) ?_ ?_ <;> rw [hx]
    · rw [hbefore, htag, ← hline]
      simp only [List.length_append, List.length_cons]
      omega
    · rw [hbefore, htag, List.append_assoc, List.drop_left' hline,
        List.dropWhile_append_of_pos hblanks, List.cons_append,
        List.dropWhile_cons_of_neg (Bool.eq_false_iff.1 hc)]
      simp only [List.length_cons, List.length_append]
      omega
  have hv := ho v
  rw [List.append_assoc, List.append_assoc, ← hrest, hsource, h] at hv
  cases o with
  | none => cases hv
  | some t =>
    obtain ⟨b, t, r⟩ := t
    simp only [Option.map_some, Option.some.injEq, Prod.mk.injEq] at hv
    obtain ⟨rfl, rfl, hr⟩ := hv
    obtain rfl := List.append_cancel_right (hr.symm.trans hrest)
    have hw := ho w
    rwa [List.append_assoc, List.append_assoc] at hw

/-- **An edit after the `return` does not change the pieces before it.** The pieces `ps` are those
of the program that stand before the edit, after the head of the text. -/
theorem scan_split {source : Text} {found rest : List Piece} {q r : Piece}
    (h : scan source = .ok (found ++ q :: rest)) (hq : q.kind ≠ .outside) (hr : r ∈ found)
    (hret : r.IsReturn) :
    ∃ head ps u v, found = head ++ ps ∧ source = textOf head ++ (u ++ v) ∧ Cut v u ps ∧
      pieces (textOf found).length v = .ok (q :: rest) ∧
      ∀ w, Cut w u ps → scan (textOf head ++ (u ++ w)) =
        (pieces (textOf found).length w).map (found ++ ·) := by
  unfold scan at h
  split at h
  · rename_i ht
    obtain ⟨u, v, rfl, hcut, hv⟩ := cut_of_pieces h hq
    have hlen : (textOf found).length = 0 + u.length := by rw [hcut.textOf_eq, Nat.zero_add]
    refine ⟨[], found, u, v, rfl, rfl, hcut, by rwa [hlen], fun w hw => ?_⟩
    obtain ⟨ps, qs, rfl⟩ := List.append_of_mem hr
    obtain ⟨o, ho⟩ := openTag?_append_of_isReturn hcut hret
    have hnone : openTag? (u ++ w) = none := by
      have := ho v
      rw [ht, eq_comm, Option.map_eq_none_iff] at this
      rw [ho w, this]
      rfl
    rw [textOf_nil, List.nil_append, scan, hnone, hlen]
    exact hw.pieces_append 0
  · rename_i before tag later ht
    obtain ⟨all, hall, he⟩ := map_eq_ok_iff.1 h
    rcases found with _ | ⟨p, _ | ⟨p', ps⟩⟩
    · cases hr
    · obtain ⟨rfl, -⟩ := List.cons.inj he
      obtain rfl := List.mem_singleton.1 hr
      cases hret.1
    · obtain ⟨rfl, hlater⟩ := List.cons.inj he
      obtain ⟨rfl, rfl⟩ := List.cons.inj hlater
      have hmem : r ∈ ps := by
        rcases List.mem_cons.1 hr with rfl | hr
        · cases hret.1
        rcases List.mem_cons.1 hr with rfl | hr
        · cases hret.1
        · exact hr
      obtain ⟨u, v, rfl, hcut, hv⟩ := cut_of_pieces hall hq
      have hlen : (textOf (⟨.preamble, before⟩ :: ⟨.token .openTag, tag⟩ :: ps)).length =
          before.length + tag.length + u.length := by
        simp only [textOf_cons, hcut.textOf_eq, List.length_append, Nat.add_assoc]
      have hhead : textOf [⟨.preamble, before⟩, ⟨.token .openTag, tag⟩] = before ++ tag := by simp
      refine ⟨[⟨.preamble, before⟩, ⟨.token .openTag, tag⟩], ps, u, v, rfl, ?_, hcut, by rwa [hlen],
        fun w hw => ?_⟩
      · rw [hhead, List.append_assoc]
        exact (append_of_openTag? ht).symm
      · have hu : u ≠ [] := by
          rintro rfl
          cases hcut
          cases hmem
        rw [hhead, List.append_assoc, scan, openTag?_split ht rfl hu w, hlen]
        simp only
        rw [hw.pieces_append]
        cases pieces (before.length + tag.length + u.length) w <;> rfl

end Script
end Scaffold

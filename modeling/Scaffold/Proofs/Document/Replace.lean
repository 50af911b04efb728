/-
# Replacing the value of an item

The value of an item with a key is written anew, from its first token to its last. The new text is
a document in which the item has the new value, with its key and its place as before
(`exists_replaced`).
-/

import Scaffold.Proofs.Document.Splice
import Scaffold.Proofs.Document.Written
import Scaffold.Proofs.Scan.Comments

namespace Scaffold
namespace Config

open Script (ArrayLiteral Carried Expression Item ItemTwin Neighbours Piece Spans Token ValueBetween
  isWordChar tokensFrom)

/-- An expression does not start with a closing tag. -/
theorem head_ne_closeTag {v : Token} {ts : List Token} (h : Script.Balanced (v :: ts)) :
    v.kind ≠ .closeTag := by
  intro hk
  have := h.2
  rw [Script.openAfter_cons, hk] at this
  cases this

/-- Every text ends at its length. -/
theorem slice_middle {source a z : Text} {n : Nat} (ha : source = a ++ z) (hn : a.length ≤ n)
    (hlen : n ≤ source.length) :
    source = a ++ (source.slice a.length n ++ source.drop n) ∧
      n = (a ++ source.slice a.length n).length := by
  have htake : a ++ source.slice a.length n = source.take n := by
    have := Text.take_append_slice source hn
    rwa [ha, List.take_left, ← ha] at this
  refine ⟨?_, ?_⟩
  · rw [← List.append_assoc, htake, List.take_append_drop]
  · rw [htake, List.length_take_of_le hlen]

/-- The text between the token `t` and the later token `u` is exchanged. -/
theorem patched_between {source : Text} {before after before₂ later : List Token}
    {t v w u : Token} {x g y x₂ g₂ y₂ : Text} (hn : Neighbours source before t v after x g y)
    (hn₂ : Neighbours source before₂ w u later x₂ g₂ y₂) (hle : t.stop ≤ u.start) (b : Text) :
    Patched source (x ++ t.text ++ (b ++ (u.text ++ y₂))) (before ++ [t]) (u :: later) u.start
      (x ++ t.text ++ b).length := by
  have hsource : source = (x ++ t.text) ++ (g ++ (v.text ++ y)) := by
    rw [hn.source_eq, List.append_assoc]
  obtain ⟨hmiddle, horigin⟩ := slice_middle hsource (hn.stop_eq ▸ hle) hn₂.start_le_length
  rw [hn₂.drop_start] at hmiddle
  exact ⟨x ++ t.text, _, b, u.text ++ y₂, hmiddle, rfl, horigin, rfl, hn.stop_le_length,
    hn₂.start_le⟩

/-- The first token of a value with the token before it, and the last one with the token behind
it. -/
theorem exists_value_neighbours {source : Text} {before later : List Token} {t u r : Token}
    {e : Expression}
    (h : Script.tokenize source = .ok (before ++ t :: (e.tokens ++ u :: later)))
    (hr : r ∈ before) (hret : r.isWord "return".toList = true) :
    ∃ v ts x g y before₂ w x₂ g₂ y₂, e.tokens = v :: ts ∧ e.start = v.start ∧ e.stop = w.stop ∧
      Neighbours source before t v (ts ++ u :: later) x g y ∧
      Neighbours source before₂ w u later x₂ g₂ y₂ := by
  obtain ⟨v, ts, hfirst⟩ := List.exists_cons_of_ne_nil e.nonempty
  obtain ⟨ts', w, hlast⟩ : ∃ ts' w, e.tokens = ts' ++ [w] :=
    ⟨_, _, (List.dropLast_concat_getLast e.nonempty).symm⟩
  have hbefore : Script.tokenize source = .ok (before ++ t :: v :: (ts ++ u :: later)) := by
    rw [h, hfirst]
    rfl
  have hafter : Script.tokenize source = .ok ((before ++ t :: ts') ++ w :: u :: later) := by
    rw [h, hlast]
    simp only [List.append_assoc, List.cons_append, List.nil_append]
  obtain ⟨x, g, y, hn⟩ := Script.tokenize_around hbefore hr hret
  obtain ⟨x₂, g₂, y₂, hn₂⟩ := Script.tokenize_around hafter (List.mem_append_left _ hr) hret
  refine ⟨v, ts, x, g, y, _, w, x₂, g₂, y₂, hfirst, ?_, ?_, hn, hn₂⟩
  · simp only [Expression.start, hfirst, List.head_cons]
  · simp only [Expression.stop, hlast, List.getLast_concat]

/-- **The tokens around a value that is written anew.** -/
theorem tokenize_value {source : Text} {before later : List Token} {arrow u r : Token}
    {e : Expression}
    (h : Script.tokenize source = .ok (before ++ arrow :: (e.tokens ++ u :: later)))
    (hr : r ∈ before) (hret : r.isWord "return".toList = true) (harrow : arrow.kind = .doubleArrow)
    (he : Script.Balanced e.tokens) (hu : u.kind = .comma ∨ ∃ shape, u.kind = .closing shape)
    {vt : Text} {vps : List Piece} (hv : Fragment vt vps) :
    ∃ a b target, (Edit.mk e.start e.stop vt).apply source = a ++ (vt ++ b) ∧
      Script.tokenize (a ++ (vt ++ b)) = .ok (before ++ arrow ::
        (Token.ofPieces a.length vps ++ (u :: later).map (Token.move u.start target))) ∧
      Patched source (a ++ (vt ++ b)) (before ++ [arrow]) (u :: later) u.start target := by
  obtain ⟨v, ts, x, g, y, before₂, w, x₂, g₂, y₂, hfirst, hstart, hstop, hn, hn₂⟩ :=
    exists_value_neighbours h hr hret
  -- the new text
  have htext : x ++ (arrow.text ++ g) ++ (vt ++ (g₂ ++ (u.text ++ y₂))) =
      x ++ arrow.text ++ ((g ++ (vt ++ g₂)) ++ (u.text ++ y₂)) := by
    simp only [List.append_assoc]
  refine ⟨x ++ (arrow.text ++ g), g₂ ++ (u.text ++ y₂),
    (x ++ arrow.text ++ (g ++ (vt ++ g₂))).length, ?_, ?_, ?_⟩
  · rw [Edit.apply, hstart, hstop, hn.take_start, hn₂.drop_stop, List.append_assoc _ vt]
  · have htoken : Script.StartsToken (v.text ++ y) :=
      hn.startsToken (head_ne_closeTag (hfirst ▸ he))
    have hcut : Script.Cut (g₂ ++ (u.text ++ y₂)) vt vps :=
      hv.cut _ (hn₂.not_word (Or.inl rfl) hn₂.gap hu)
    have hexchange := hn.exchange (g ++ (vt ++ (g₂ ++ (u.text ++ y₂))))
      (Or.inl (Or.inr (Or.inl harrow)))
    rw [(hn.gap.anywhere htoken _).tokensFrom_append, hcut.tokensFrom_append,
      hn₂.gap.tokensFrom_append, Script.tokensFrom_move hn₂.rest] at hexchange
    rw [htext, List.append_assoc x, List.append_assoc g, List.append_assoc vt, hexchange,
      hn.stop_eq]
    simp only [Except.map, List.length_append, Nat.add_assoc]
  · have hle : arrow.stop ≤ u.start := by
      have hv := hn.le_start u (by simp)
      have := hn.next_start
      simp only [Token.stop] at hv this ⊢
      omega
    rw [htext]
    exact patched_between hn hn₂ hle _

/-- The value of an item with a key stands between an arrow and a comma or the closing bracket,
wherever the literal stands. -/
theorem exists_valueBetween {op I : List Token} {c : Token} {m : ArrayLiteral} (hm : Spans op I c m)
    {before after : List Item} {item : Item} (hitems : m.items = before ++ item :: after)
    (hkey : item.key.isSome) (rest : List Token) :
    ∃ us arrow vs u later, I = (us ++ [arrow]) ++ (item.value.tokens ++ vs) ∧
      arrow.kind = .doubleArrow ∧ ValueBetween (us ++ [arrow]) vs before item after ∧
      vs ++ c :: rest = u :: later ∧ (u.kind = .comma ∨ ∃ shape, u.kind = .closing shape) ∧
      ∀ A, A ++ (op ++ (I ++ c :: rest)) =
        (A ++ (op ++ us)) ++ arrow :: (item.value.tokens ++ u :: later) := by
  obtain ⟨us, vs, rfl, hbetween⟩ := hm.listing.exchange hitems
  obtain ⟨us, arrow, rfl, harrow⟩ := hbetween.arrow hkey
  obtain ⟨u, later, hrest, hu⟩ := hbetween.exists_separator hm.closing rest
  refine ⟨us, arrow, vs, u, later, rfl, harrow, hbetween, hrest, hu, fun A => ?_⟩
  rw [← hrest]
  simp only [List.append_assoc, List.cons_append, List.nil_append]

namespace Document

/-- An item that matches has a key. -/
theorem isSome_key_of_matching {document : Document} {m : ArrayLiteral} {wanted : Script.Value}
    {item : Item} (h : document.matching m wanted = [item]) : item.key.isSome := by
  obtain ⟨e, he, -⟩ := hasKey_iff.1 (hasKey_of_matching h)
  rw [he]
  rfl

/-- **A replaced value.** -/
theorem exists_replaced {document : Document} (hread : document.IsRead) {keys : List Text}
    {m : ArrayLiteral} (hleads : Leads document document.file.root keys m) {key : Text}
    {item : Item} (hunique : document.matching m (.known key) = [item]) {vt : Text}
    {vps : List Piece} (hv : Fragment vt vps) :
    ∃ document' m' item' offset,
      document.splice [⟨item.value.start, item.value.stop, vt⟩] = .ok document' ∧
      Edited document document' keys m m' ∧ Replaced document document' key m m' item item' ∧
      item'.value.written document'.source = vt ∧
      item'.value.tokens = Token.ofPieces offset vps := by
  obtain ⟨A, op, I, c, B, htokens, hm, ⟨r, hrA, hr⟩, hedit⟩ := exists_edited hread hleads
  obtain ⟨before, after, hitems⟩ := items_eq_of_matching hunique
  obtain ⟨us, arrow, vs, u, later, rfl, harrow, hbetween, hrest, hu, hshape⟩ :=
    exists_valueBetween hm hitems (isSome_key_of_matching hunique) B
  rw [hshape] at htokens
  obtain ⟨a, b, target, hsource, hnew, hpatched⟩ := tokenize_value htokens
    (List.mem_append_left _ hrA) hr harrow hbetween.balanced hu hv
  let value : Expression := ⟨Token.ofPieces a.length vps, (hv.balanced _).1⟩
  have hvalue : Script.Balanced value.tokens := hv.balanced a.length
  have hm' := spans_literalWith hm hbetween hvalue u.start target
  have hbefore : A ++ (op ++ (us ++ [arrow])) ⊆ A ++ (op ++ us) ++ [arrow] := by
    simp only [List.append_assoc]
    exact List.Subset.refl _
  have hbrackets : A ++ op ⊆ A ++ (op ++ us) ++ [arrow] := by
    rw [← List.append_assoc A, List.append_assoc]
    exact List.subset_append_left _ _
  have hafter : vs ++ c :: B ⊆ u :: later := hrest ▸ List.Subset.refl _
  have hclose : c :: B ⊆ u :: later := List.Subset.trans (List.subset_append_right _ _) hafter
  have htokensNew : Script.tokenize (a ++ (vt ++ b)) = .ok (A ++ (op ++
      (((us ++ [arrow]) ++ (value.tokens ++ vs.map (Token.move u.start target))) ++
        (c :: B).map (Token.move u.start target)))) := by
    rw [hnew, ← hrest]
    simp only [value, List.append_assoc, List.cons_append, List.nil_append, List.map_append]
  obtain ⟨document', hread', hedited⟩ := hedit htokensNew hm' (hpatched.mono hbrackets hclose)
  have hsource' : document'.source = a ++ (vt ++ b) := (read_eq_ok_iff.1 hread').1
  have hcarried : Carried document.source document'.source 0 0 (us ++ [arrow]) := by
    rw [hsource']
    exact hpatched.carried_before.mono fun token ht =>
      hbefore (List.mem_append_right _ (List.mem_append_right _ ht))
  have hmoved : Carried document.source document'.source u.start target vs := by
    rw [hsource']
    exact hpatched.carried_after.mono (List.Subset.trans (List.subset_append_left _ _) hafter)
  have hsplice : document.splice [⟨item.value.start, item.value.stop, vt⟩] = .ok document' := by
    rw [splice, Edit.applyAll, List.foldl_cons, List.foldl_nil, hsource, hread']
  refine ⟨document', _, _, a.length, hsplice, hedited,
    replaced_literalWith hunique hitems hbetween hcarried hmoved value, ?_, rfl⟩
  rw [hsource']
  exact hv.written_eq rfl

end Document
end Config
end Scaffold

/-
# A document after an edit

The text of a document changes between two places. If the tokens before and after the change are
the tokens of the new text and those between list items, the new text is a document again, with the
same names; only the literal around the change is edited, and the text around the returned array is
the same (`exists_edited`).
-/

import Scaffold.Proofs.Document.Exchange
import Scaffold.Proofs.Literal.Returned

namespace Scaffold
namespace Config

open Script (ArrayLiteral Expression Item SourceFile Token Value Spans Carried ExpressionTwin
  ItemTwin LiteralTwin)

/-- The second text is the first one with another text between the tokens `before` and the tokens
`after`; what stood at `origin` stands at `target`. -/
def Patched (source source' : Text) (before after : List Token) (origin target : Nat) : Prop :=
  ∃ a b b' z, source = a ++ (b ++ z) ∧ source' = a ++ (b' ++ z) ∧ origin = (a ++ b).length ∧
    target = (a ++ b').length ∧ (∀ token ∈ before, token.stop ≤ a.length) ∧
    ∀ token ∈ after, origin ≤ token.start

namespace Patched

variable {source source' : Text} {before after : List Token} {origin target : Nat}

/-- A patch between some tokens is one between fewer of them. -/
theorem mono {before' after' : List Token} (h : Patched source source' before after origin target)
    (hb : before' ⊆ before) (ha : after' ⊆ after) :
    Patched source source' before' after' origin target := by
  obtain ⟨a, b, b', z, hsource, hsource', horigin, htarget, hbefore, hafter⟩ := h
  exact ⟨a, b, b', z, hsource, hsource', horigin, htarget, fun t ht => hbefore t (hb ht),
    fun t ht => hafter t (ha ht)⟩

/-- The tokens before a patch are carried as they are. -/
theorem carried_before (h : Patched source source' before after origin target) :
    Carried source source' 0 0 before := by
  obtain ⟨a, b, b', z, rfl, rfl, -, -, hb, -⟩ := h
  exact .before hb _ _

/-- The tokens behind a patch are carried to where they have moved. -/
theorem carried_after (h : Patched source source' before after origin target) :
    Carried source source' origin target after := by
  obtain ⟨a, b, b', z, rfl, rfl, rfl, rfl, -, ha⟩ := h
  rw [← List.append_assoc, ← List.append_assoc]
  exact .after ha _ _

/-- Up to the end of a token before the patch, the texts are the same. -/
theorem take_eq (h : Patched source source' before after origin target) {token : Token}
    (ht : token ∈ before) : source'.take token.stop = source.take token.stop := by
  obtain ⟨a, b, b', z, rfl, rfl, -, -, hb, -⟩ := h
  rw [List.take_append_of_le_length (hb token ht), List.take_append_of_le_length (hb token ht)]

/-- From a token behind the patch on, the texts are the same. -/
theorem drop_eq (h : Patched source source' before after origin target) {token : Token}
    (ht : token ∈ after) :
    source'.drop (token.move origin target).start = source.drop token.start := by
  obtain ⟨a, b, b', z, rfl, rfl, rfl, rfl, -, ha⟩ := h
  have hdrop : ∀ (x : Text) (n : Nat), x.length ≤ n → (x ++ z).drop n = z.drop (n - x.length) :=
    fun x n hn => by rw [List.drop_append, List.drop_eq_nil_of_le hn, List.nil_append]
  rw [← List.append_assoc, ← List.append_assoc, hdrop _ _ (ha token ht),
    hdrop _ _ (by simp only [Token.move]; omega)]
  congr 1
  simp only [Token.move]
  omega

end Patched

namespace Document

/-- The file of the document is what its source text is read as. -/
def IsRead (document : Document) : Prop := SourceFile.read document.source = .ok document.file

/-- One document is the other with the literal `m` at some keys edited to the literal `m'`. -/
structure Edited (document document' : Document) (keys : List Text) (m m' : ArrayLiteral) :
    Prop where
  isRead : document'.IsRead
  created_eq : document'.created = document.created
  names_eq : document'.file.names = document.file.names
  touched : Touched document document' (fun l l' => l = m ∧ l' = m') keys document.file.root
    document'.file.root
  head_eq : document'.source.take document'.file.root.openStop =
    document.source.take document.file.root.openStop
  tail_eq : document'.source.drop document'.file.root.close =
    document.source.drop document.file.root.close

/-- The edited literal is where the literal was. -/
theorem Edited.leads {document document' : Document} {keys : List Text} {m m' : ArrayLiteral}
    (h : Edited document document' keys m m') (hm : Leads document document.file.root keys m) :
    Leads document' document'.file.root keys m' := by
  obtain ⟨_, hm', -, rfl⟩ := h.touched.leads h.names_eq hm
  exact hm'

/-- A document is read if it keeps the text and what the text says. -/
theorem read_eq_ok_iff {source : Text} {created : Bool} {document : Document} :
    read source created = .ok document ↔
      document.source = source ∧ document.created = created ∧ document.IsRead := by
  unfold read IsRead
  constructor
  · intro h
    split at h
    · cases h
    · rename_i file hf
      cases h
      exact ⟨rfl, rfl, hf⟩
  · rintro ⟨rfl, rfl, h⟩
    rw [h]

/-- **A document whose text has changed between the brackets of a literal.** -/
theorem exists_edited {document : Document} (hread : document.IsRead) {keys : List Text}
    {m : ArrayLiteral} (hleads : Leads document document.file.root keys m) :
    ∃ A op I c B, Script.tokenize document.source = .ok (A ++ (op ++ (I ++ c :: B))) ∧
      Spans op I c m ∧ (∃ r ∈ A, r.isWord "return".toList = true) ∧
      ∀ {source' : Text} {origin target : Nat} {I' : List Token} {m' : ArrayLiteral},
        Script.tokenize source' =
          .ok (A ++ (op ++ (I' ++ (c :: B).map (Token.move origin target)))) →
        Spans op I' (c.move origin target) m' →
        Patched document.source source' (A ++ op) (c :: B) origin target →
        ∃ document', read source' document.created = .ok document' ∧
          Edited document document' keys m m' := by
  obtain ⟨P, r, opr, Ir, cr, E, htokens, -, hdeclares, hroot, hend⟩ :=
    SourceFile.read_eq_ok_iff.1 hread
  obtain ⟨Q, R, op, I, c, hinside, hm, hopr, hcr, hexchange⟩ := hleads.exchange hroot
  have hsplit : opr ++ (Ir ++ cr :: E) = Q ++ (op ++ (I ++ c :: (R ++ E))) := by
    have := congrArg (· ++ E) hinside
    simpa only [List.append_assoc, List.cons_append, List.nil_append] using this
  refine ⟨P ++ r :: Q, op, I, c, R ++ E, ?_, hm, ⟨r, by simp, hdeclares.1⟩, ?_⟩
  · rw [htokens, hsplit]
    simp only [List.append_assoc, List.cons_append]
  intro source' origin target I' m' htokens' hm' hpatched
  obtain ⟨I₂, root', hinside', hroot', htouched⟩ := hexchange hm'
  let file' : SourceFile :=
    ⟨P ++ r :: (Q ++ (op ++ (I' ++ (c :: (R ++ E)).map (Token.move origin target)))),
      document.file.names, root'⟩
  have hsplit' : Q ++ (op ++ (I' ++ (c :: (R ++ E)).map (Token.move origin target))) =
      opr ++ (I₂ ++ cr.move origin target :: E.map (Token.move origin target)) := by
    have := congrArg (· ++ E.map (Token.move origin target)) hinside'
    simpa only [List.append_assoc, List.cons_append, List.nil_append, List.map_cons,
      List.map_append] using this
  have hbefore := hpatched.carried_before
  have hafter := hpatched.carried_after
  have hinner : Q ++ op ⊆ (P ++ r :: Q) ++ op := by
    rw [List.append_assoc, List.cons_append]
    exact List.subset_append_of_subset_right _ (List.subset_cons_self _ _)
  have houter : c :: R ⊆ c :: (R ++ E) := List.cons_subset_cons _ (List.subset_append_left _ _)
  have hread' : SourceFile.read source' = .ok file' := by
    refine SourceFile.read_eq_ok_iff.2 ⟨P, r, opr, I₂, cr.move origin target,
      E.map (Token.move origin target), ?_, ?_, hdeclares, hroot', Script.checkEnd_move hend _ _ _⟩
    · rw [htokens', ← hsplit']
      simp only [List.append_assoc, List.cons_append]
    · rw [← hsplit']
  refine ⟨⟨source', file', document.created⟩, read_eq_ok_iff.2 ⟨rfl, rfl, hread'⟩,
    ⟨hread', rfl, rfl, htouched ?_ ?_, ?_, ?_⟩⟩
  · exact hbefore.mono hinner
  · exact hafter.mono houter
  · obtain ⟨-, -, hstop⟩ := hroot.opens.unique hroot'.opens
    obtain ⟨us, token, hop, htoken, -⟩ := hroot.opens.exists_stop_eq
    have hmem : token ∈ Q ++ op := hopr.subset (by simp [hop])
    change source'.take root'.openStop = _
    rw [hstop, ← htoken]
    exact hpatched.take_eq (hinner hmem)
  · change source'.drop root'.close = _
    rw [← hroot'.close_eq, ← hroot.close_eq]
    exact hpatched.drop_eq (houter hcr)

end Document
end Config
end Scaffold

/-
# The returned array literal of a source file

A source file is read as the tokens up to its `return`, the tokens of an array literal, and an end.
The names of the file depend only on the tokens up to the `return` (`findReturn_split`). So another
literal in the same place is read with the same names (`SourceFile.read_eq_ok_iff`).
-/

import Scaffold.Script.SourceFile
import Scaffold.Proofs.Literal.Spans

namespace Scaffold
namespace Script

/-- What follows the first element that does not satisfy `p`, if something does, follows such an
element. -/
theorem eq_takeWhile_append_cons {α : Type} {p : α → Bool} {l : List α}
    (h : l.drop ((l.takeWhile p).length + 1) ≠ []) :
    ∃ a, p a = false ∧ l = l.takeWhile p ++ a :: l.drop ((l.takeWhile p).length + 1) := by
  induction l with
  | nil => exact absurd rfl h
  | cons b l ih =>
    by_cases hb : p b = true
    · rw [List.takeWhile_cons_of_pos hb, List.length_cons, List.drop_succ_cons] at h ⊢
      obtain ⟨a, ha, he⟩ := ih h
      refine ⟨a, ha, ?_⟩
      rw [List.cons_append, ← he]
    · rw [List.takeWhile_cons_of_neg hb]
      exact ⟨b, Bool.eq_false_iff.2 hb, rfl⟩

/-- A run ends before the first element that does not belong to it. -/
theorem takeWhile_append_cons {α : Type} {p : α → Bool} {clause : List α}
    (hc : ∀ b ∈ clause, p b = true) {a : α} (ha : p a = false) (l : List α) :
    (clause ++ a :: l).takeWhile p = clause := by
  have ha' : ¬p a = true := Bool.eq_false_iff.1 ha
  rw [List.takeWhile_append_of_pos hc, List.takeWhile_cons_of_neg ha', List.append_nil]

/-- **The names of a file depend on the tokens up to the `return` only.** -/
theorem findReturn_split {names : Names} {depth : Nat} {fresh : Bool} {ts rest : List Token}
    {found : Names} (h : findReturn names depth fresh ts = some (found, rest)) :
    ∃ P r, ts = P ++ r :: rest ∧ r.isWord "return".toList = true ∧
      ∀ rest', findReturn names depth fresh (P ++ r :: rest') = some (found, rest') := by
  fun_induction findReturn names depth fresh ts with
  | case1 => cases h
  | case2 names depth fresh token later depth' hword hreturn =>
    cases h
    refine ⟨[], token, rfl, hreturn, fun rest' => ?_⟩
    rw [List.nil_append, findReturn, if_pos hword, if_pos hreturn]
  | case3 names depth fresh token later depth' hword hreturn huse clause ih =>
    obtain ⟨P, r, hlater, hr, hfind⟩ := ih h
    obtain ⟨a, ha, hsplit⟩ := eq_takeWhile_append_cons (p := (·.kind != .semicolon)) (l := later)
      (by rw [hlater]; simp)
    have hc : ∀ b ∈ clause, (b.kind != .semicolon) = true := fun b hb =>
      List.mem_takeWhile_imp (p := fun b : Token => b.kind != .semicolon) hb
    refine ⟨token :: (clause ++ a :: P), r, ?_, hr, fun rest' => ?_⟩
    · rw [hlater] at hsplit
      rw [hsplit]
      simp [clause]
    · have hclause : (clause ++ a :: (P ++ r :: rest')).takeWhile (·.kind != .semicolon) = clause :=
        takeWhile_append_cons hc ha _
      rw [List.cons_append, List.append_assoc, List.cons_append, findReturn, if_pos hword,
        if_neg hreturn, if_pos huse]
      simp only [hclause]
      rw [List.append_cons, List.drop_left' (by simp)]
      exact hfind rest'
  | case4 names depth fresh token later depth' hword hreturn huse declared ih =>
    obtain ⟨P, r, rfl, hr, hfind⟩ := ih h
    refine ⟨token :: P, r, rfl, hr, fun rest' => ?_⟩
    have hhead : (P ++ r :: rest').head? = (P ++ r :: rest).head? := by cases P <;> rfl
    rw [List.cons_append, findReturn, if_pos hword, if_neg hreturn, if_neg huse]
    simp only [hhead]
    exact hfind rest'
  | case5 names depth fresh token later depth' hword ih =>
    obtain ⟨P, r, rfl, hr, hfind⟩ := ih h
    refine ⟨token :: P, r, rfl, hr, fun rest' => ?_⟩
    rw [List.cons_append, findReturn, if_neg hword]
    exact hfind rest'

/-- A file may end with a closing tag, or with a semicolon that nothing follows or a closing tag. -/
theorem checkEnd_cons_iff {length : Nat} {token : Token} {rest : List Token} :
    checkEnd length (token :: rest) = .ok () ↔
      token.kind = .semicolon ∧ (∀ extra ∈ rest.head?, extra.kind = .closeTag) ∨
        token.kind = .closeTag := by
  by_cases hs : token.kind = .semicolon <;> by_cases hc : token.kind = .closeTag <;>
    cases rest <;> simp [checkEnd, hs, hc]

/-- Where a file may end with some tokens, it may end with the same tokens elsewhere. -/
theorem checkEnd_move {length : Nat} {ts : List Token} (h : checkEnd length ts = .ok ())
    (length' origin target : Nat) :
    checkEnd length' (ts.map (Token.move origin target)) = .ok () := by
  cases ts with
  | nil => cases h
  | cons token rest =>
    refine checkEnd_cons_iff.2 ((checkEnd_cons_iff.1 h).imp_left (And.imp_right fun hrest => ?_))
    cases rest with
    | nil => exact fun extra he => absurd he (by simp)
    | cons extra rest => simpa using hrest

/-- The tokens `P` up to the `return` token `r`, and the names that they declare. -/
def Declares (P : List Token) (r : Token) (names : Names) : Prop :=
  r.isWord "return".toList = true ∧
    ∀ rest, findReturn .global 0 true (P ++ r :: rest) = some (names, rest)

/-- **How a source file is read.** -/
theorem SourceFile.read_eq_ok_iff {source : Text} {file : SourceFile} :
    SourceFile.read source = .ok file ↔ ∃ P r op I c E,
      tokenize source = .ok (P ++ r :: (op ++ (I ++ c :: E))) ∧
      file.tokens = P ++ r :: (op ++ (I ++ c :: E)) ∧ Declares P r file.names ∧
      Spans op I c file.root ∧ checkEnd source.length E = .ok () := by
  constructor
  · intro h
    unfold SourceFile.read at h
    cases ht : tokenize source with
    | error => rw [ht] at h; cases h
    | ok tokens =>
      rw [ht] at h
      simp only [bind, Except.bind] at h
      split at h
      · rename_i names returned hfind
        split at h
        · cases h
        · rename_i found hread
          split at h
          · rename_i root E
            split at h
            · cases h
            · rename_i hend
              cases h
              obtain ⟨P, r, rfl, hr, hnames⟩ := findReturn_split hfind
              obtain ⟨op, I, c, rfl, hspans⟩ := read?_eq_some_iff.1 hread
              exact ⟨P, r, op, I, c, E, rfl, rfl, ⟨hr, hnames⟩, hspans, hend⟩
          · cases h
      · cases h
  · rintro ⟨P, r, op, I, c, E, ht, htokens, ⟨hr, hfind⟩, hspans, hend⟩
    have hread : ArrayLiteral.read? (op ++ (I ++ c :: E)) = .ok (some (file.root, E)) :=
      read?_eq_some_iff.2 ⟨op, I, c, rfl, hspans⟩
    unfold SourceFile.read
    rw [ht]
    simp only [bind, Except.bind, hfind, hread, hend]
    rw [← htokens]
    rfl

end Script
end Scaffold

/-
# The names after some statements

`findReturn` goes over the statements before the `return` one by one: what it knows after a
statement depends on what it knew before and on that statement only
(`Statement.findReturn_append`), and so for a program (`Spelled.findReturn_append`). A declaration
replaces the namespace, and keeps what was imported before it (`Statement.update`).
-/

import Scaffold.Proofs.Literal.Returned
import Scaffold.Proofs.Names.Imports

namespace Scaffold
namespace Script

/-! ### Other statements -/

/-- The number of open brackets is the height of their stack. -/
theorem depthAfter_of_stackStep {opened opened' : List Bracket} {token : Token}
    (h : stackStep opened token.kind = some opened') :
    depthAfter opened.length token = opened'.length := by
  unfold depthAfter
  cases hk : token.kind with
  | opening shape =>
    rw [hk] at h
    cases h
    rfl
  | closing shape =>
    rw [hk] at h
    cases opened with
    | nil => cases h
    | cons innermost others =>
      rw [stackStep] at h
      split at h
      · cases h
        rfl
      · cases h
  | _ =>
    rw [hk] at h
    cases h
    rfl

/-- A statement ends with a semicolon or a curly bracket. -/
theorem endsStatement_concat {ts : List Token} {token : Token} :
    EndsStatement (ts ++ [token]) ↔ token.kind = .semicolon ∨ token.kind = .closing .curly := by
  rw [EndsStatement, List.getLast?_concat]
  exact ⟨fun h => h token rfl, fun h last hlast => Option.some.inj hlast ▸ h⟩

/-- In the midst of other statements, nothing is learned from the rest of them. -/
theorem Plain.findReturn_split {ts us vs : List Token} (h : Plain ts) (hts : ts = us ++ vs)
    {opened : List Bracket} (hopened : stackAfter [] us = some opened) {fresh : Bool}
    (hfresh : fresh = true ↔ opened = [] ∧ EndsStatement us) (names : Names) (rest : List Token) :
    findReturn names opened.length fresh (vs ++ rest) = findReturn names 0 true rest := by
  have hnested := nested_iff.1 h.nested
  induction vs generalizing us opened fresh with
  | nil =>
    rw [List.append_nil] at hts
    subst hts
    rw [hnested] at hopened
    cases hopened
    rw [hfresh.2 ⟨rfl, h.ends⟩]
    rfl
  | cons token vs ih =>
    have hrest := hnested
    rw [hts, stackAfter_append, hopened, Option.bind_some, stackAfter_cons] at hrest
    obtain ⟨opened', hstep, -⟩ := Option.bind_eq_some_iff.1 hrest
    have hts' : ts = us ++ [token] ++ vs := by rw [hts, List.append_assoc, List.singleton_append]
    have hopened' : stackAfter [] (us ++ [token]) = some opened' := by
      rw [stackAfter_append, hopened, Option.bind_some, stackAfter_cons, hstep]
      rfl
    have hdepth := depthAfter_of_stackStep hstep
    rw [List.cons_append, findReturn]
    simp only [hdepth]
    split
    · rename_i hstart
      obtain ⟨hclosed, hbegin, hk⟩ := hstart
      have hplain : ¬token.IsBracket := by
        rintro ⟨shape, hbracket | hbracket⟩ <;> rw [hk] at hbracket <;> cases hbracket
      obtain ⟨rfl, hends⟩ := hfresh.1 hbegin
      rw [stackStep_plain hplain] at hstep
      cases hstep
      obtain ⟨hreturn, huse, hspace⟩ :=
        h.quiet us token vs ⟨hts, nested_iff.2 hopened, hk⟩ hends
      have hinside : ¬EndsStatement (us ++ [token]) := by
        rw [endsStatement_concat, hk]
        simp
      have hnext := @ih (us ++ [token]) hts' [] hopened' false
        (iff_of_false Bool.false_ne_true fun hends => hinside hends.2)
      rw [if_neg (by rw [hreturn]; exact Bool.false_ne_true),
        if_neg (by rw [huse]; exact Bool.false_ne_true)]
      cases vs with
      | nil =>
        rw [List.append_nil] at hts'
        exact absurd (hts' ▸ h.ends) hinside
      | cons next vs =>
        have hnone : ¬(token.isWord "namespace".toList && next.kind == .word) = true := by
          rw [Bool.and_eq_true, beq_iff_eq, not_and]
          exact fun hword => hspace hword next rfl
        simp only [List.cons_append, List.head?_cons]
        rw [if_neg hnone]
        exact hnext
    · refine ih hts' hopened' ?_
      have htag := (h.tagFree token (hts ▸ List.mem_append_right _ List.mem_cons_self)).1
      rw [endsStatement_concat, Bool.and_eq_true, beq_iff_eq, List.length_eq_zero_iff,
        endsStatement]
      simp [htag]

/-! ### Statement by statement -/

/-- A token is one word only. -/
theorem Token.isWord_eq_false {token : Token} {word other : Text} (h : token.isWord word = true)
    (hne : Text.equalsIgnoringCase word other = false) : ¬token.isWord other = true := by
  intro h'
  rw [Token.isWord, Bool.and_eq_true] at h h'
  have hword : token.text.map Char.toLower = word.map Char.toLower := beq_iff_eq.1 h.2
  have hother : token.text.map Char.toLower = other.map Char.toLower := beq_iff_eq.1 h'.2
  exact beq_eq_false_iff_ne.1 hne (hword.symm.trans hother)

/-- A word does not change the depth. -/
theorem depthAfter_word (depth : Nat) {token : Token} (h : token.kind = .word) :
    depthAfter depth token = depth := by
  rw [depthAfter, h]

/-- A declaration sets the namespace of what follows it. -/
theorem findReturn_declaration {keyword word semicolon : Token}
    (h : keyword.isWord "namespace".toList = true) (hword : word.kind = .word)
    (hsemicolon : semicolon.kind = .semicolon) (names : Names) (rest : List Token) :
    findReturn names 0 true (keyword :: word :: semicolon :: rest) =
      findReturn { names with current := some (word.text.dropWhile (· == '\\')) } 0 true rest := by
  have hkeyword := Token.kind_of_isWord h
  have hreturn := Token.isWord_eq_false h (rfl : Text.equalsIgnoringCase _ "return".toList = false)
  have huse := Token.isWord_eq_false h (rfl : Text.equalsIgnoringCase _ "use".toList = false)
  rw [findReturn, depthAfter_word 0 hkeyword, if_pos ⟨rfl, rfl, hkeyword⟩, if_neg hreturn,
    if_neg huse]
  simp only [List.head?_cons]
  rw [if_pos (by rw [h, hword]; rfl), findReturn, depthAfter_word 0 hword,
    if_neg fun h => Bool.false_ne_true h.2.1, findReturn]
  simp [depthAfter, endsStatement, hword, hsemicolon]

/-- Up to its semicolon an import statement is read as a whole. -/
theorem findReturn_use {keyword semicolon : Token} {clause : List Token}
    (h : keyword.isWord "use".toList = true) (hclause : ∀ t ∈ clause, t.kind ≠ .semicolon)
    (hsemicolon : semicolon.kind = .semicolon) (names : Names) (rest : List Token) :
    findReturn names 0 true (keyword :: (clause ++ semicolon :: rest)) =
      findReturn { names with imports := names.imports ++ classImports clause } 0 true rest := by
  have hkeyword := Token.kind_of_isWord h
  have hreturn := Token.isWord_eq_false h (rfl : Text.equalsIgnoringCase _ "return".toList = false)
  have htake : (clause ++ semicolon :: rest).takeWhile (·.kind != .semicolon) = clause :=
    takeWhile_append_cons (fun t ht => bne_iff_ne.2 (hclause t ht))
      (by rw [hsemicolon]; exact bne_self_eq_false _) rest
  rw [findReturn, depthAfter_word 0 hkeyword, if_pos ⟨rfl, rfl, hkeyword⟩, if_neg hreturn, if_pos h]
  simp only [htake]
  rw [List.append_cons, List.drop_left' (by simp)]

/-- What is known after a statement. -/
def Statement.update (names : Names) : Statement → Names
  | .declaration name => { names with current := some name.text }
  | .use u => { names with imports := names.imports ++ u.imported }
  | .other _ => names

/-- **What is learned from one statement.** -/
theorem Statement.findReturn_append {statement : Statement} (h : statement.WellFormed)
    {ts : List Token} (hts : statement.SpelledBy ts) (names : Names) (rest : List Token) :
    findReturn names 0 true (ts ++ rest) = findReturn (statement.update names) 0 true rest := by
  cases statement with
  | declaration name =>
    obtain ⟨keyword, us, rfl, hkeyword, hus⟩ := Follows.of_cons hts
    obtain ⟨word, vs, rfl, ⟨hword, htext⟩, hvs⟩ := hus.of_cons
    obtain ⟨semicolon, ws, rfl, hsemicolon, hws⟩ := hvs.of_cons
    cases hws
    have hname : name.WellFormed := h
    have hdrop : word.text.dropWhile (· == '\\') = name.text := by
      rw [htext]
      exact dropWhile_withLead hname.text_eq_cons false
    have hread := findReturn_declaration hkeyword hword hsemicolon names rest
    rwa [hdrop] at hread
  | use u =>
    obtain ⟨keyword, us, rfl, hkeyword, hus⟩ := Follows.of_cons hts
    obtain ⟨clause, vs, rfl, hclause, hvs⟩ := hus.of_append
    obtain ⟨semicolon, ws, rfl, hsemicolon, hws⟩ := hvs.of_cons
    cases hws
    have hu : u.WellFormed := h
    rw [List.cons_append, List.append_assoc, List.singleton_append, Statement.update,
      ← hu.classImports_eq hclause]
    exact findReturn_use hkeyword (hclause.kind_ne nofun u.semicolon_not_mem_forms) hsemicolon
      names rest
  | other own =>
    obtain rfl : ts = own := hts
    exact Plain.findReturn_split h (List.nil_append ts).symm rfl
      (iff_of_true rfl ⟨rfl, nofun⟩) names rest

/-- **What is learned from a program.** -/
theorem Spelled.findReturn_append {program : List Statement} {ts : List Token}
    (h : Spelled program ts) (hp : ∀ statement ∈ program, statement.WellFormed) (names : Names)
    (rest : List Token) :
    findReturn names 0 true (ts ++ rest) =
      findReturn (program.foldl Statement.update names) 0 true rest := by
  induction h generalizing names with
  | nil => rfl
  | cons hstatement later ih =>
    obtain ⟨hfirst, hlater⟩ := List.forall_mem_cons.1 hp
    rw [List.append_assoc, Statement.findReturn_append hfirst hstatement, ih hlater,
      List.foldl_cons]

end Script
end Scaffold

/-
# Literals inside literals

Reading the items of a literal matches the brackets inside a value without looking into it. So a
literal that the value starts with can be read later, and from the value on the tokens need not end
where the value does:

* the brackets of the value match, hence reading from its first token on meets no bracket that is
  out of place and does not run out of tokens (`readItems_within`);
* what is read is what the tokens of the value alone give, and the tokens left over are those of
  the value and all that stand behind it (`read?_within`).

The invariant is about the two stacks of brackets: the one of the later reading, with the bracket
of its own literal below it, is at each token the one of the earlier reading.
-/

import Scaffold.Proofs.Literal.Spans

namespace Scaffold
namespace Script

/-- The fault is that of a bracket: one that closes another than the innermost open one, or none
that closes the literal. -/
def Fault.OfBrackets (fault : Fault) : Prop := fault = .mismatchedBracket ∨ fault = .unclosedArray

instance : DecidablePred Fault.OfBrackets := fun fault =>
  inferInstanceAs (Decidable (fault = .mismatchedBracket ∨ fault = .unclosedArray))

/-- Whatever is made of a result, a fault of another kind stays the fault. -/
theorem error_within {α β : Type} {f : α → β} {found : FaultAt} (h : ¬found.fault.OfBrackets) :
    Except.error found = (Except.error found).map f ∧
      ∀ found', (Except.error found : Except FaultAt α) = .error found' →
        ¬found'.fault.OfBrackets := by
  refine ⟨rfl, fun found' he => ?_⟩
  cases he
  exact h

/-- A part that is read well, in a whole that is read alike, has no fault of brackets. -/
theorem ok_within {α β : Type} {f : α → β} {part : Except FaultAt α} {whole : Except FaultAt β}
    {a : α} (hpart : part = .ok a) (hwhole : whole = .ok (f a)) :
    whole = part.map f ∧ ∀ found, part = .error found → ¬found.fault.OfBrackets := by
  subst hpart hwhole
  refine ⟨rfl, fun found h => ?_⟩
  cases h

namespace PartialItem

/-- Ending an item finds no fault of brackets. -/
theorem not_ofBrackets_of_finish {item : PartialItem} {comma : Option Nat} {found : FaultAt}
    (h : item.finish comma = .error found) : ¬found.fault.OfBrackets := by
  cases item with
  | nothing | bare => cases h
  | keyed key arrow value =>
    cases value with
    | cons => cases h
    | nil =>
      cases h
      exact show ¬Fault.OfBrackets .missingValue by decide

/-- An arrow in an item is no fault of brackets. -/
theorem not_ofBrackets_of_arrow {item : PartialItem} {token : Token} {found : FaultAt}
    (h : item.arrow token = .error found) : ¬found.fault.OfBrackets := by
  cases item with
  | bare => cases h
  | nothing | keyed =>
    cases h
    exact show ¬Fault.OfBrackets .unexpectedArrow by decide

end PartialItem

section
variable {outer : Bracket} {opened : Nat}

/-- A token that no expression goes on with, where the bracket of a literal is open around the
expression and closed in the end: it is that bracket, or a separator in the literal. -/
theorem separator_cases {inner : List Bracket} {token : Token} {ts : List Token}
    (hs : openStep inner token.kind = none)
    (h : openAfter (inner ++ [outer]) (token :: ts) = some []) :
    inner = [] ∧ (token.kind = .closing outer ∨
      (token.kind = .comma ∨ token.kind = .doubleArrow ∨ token.kind = .semicolon) ∧
        openAfter [outer] ts = some []) := by
  rw [openAfter_cons] at h
  obtain ⟨next, hnext, hrest⟩ := Option.bind_eq_some_iff.1 h
  generalize token.kind = kind at hs hnext ⊢
  cases inner with
  | cons innermost others =>
    -- inside a bracket of the expression the two stacks allow the same
    rw [List.cons_append] at hnext
    cases kind with
    | closing shape =>
      simp only [openStep] at hs hnext
      split at hnext
      · rename_i hshape
        rw [if_pos hshape] at hs
        cases hs
      · cases hnext
    | openTag | closeTag => cases hnext
    | _ => cases hs
  | nil =>
    refine ⟨rfl, ?_⟩
    cases kind with
    | closing shape =>
      simp only [openStep, List.nil_append] at hnext
      split at hnext
      · rename_i hshape
        exact Or.inl (congrArg _ hshape)
      · cases hnext
    | comma => cases hnext; exact Or.inr ⟨Or.inl rfl, hrest⟩
    | doubleArrow => cases hnext; exact Or.inr ⟨Or.inr (Or.inl rfl), hrest⟩
    | semicolon => cases hnext; exact Or.inr ⟨Or.inr (Or.inr rfl), hrest⟩
    | openTag | closeTag => cases hnext
    | _ => cases hs

/-- **Within matching brackets the items of a literal end.**  The brackets of `ts` close those of
the item and, in the end, the bracket of the literal; so the reading stops within `ts`, with the
same result whatever stands behind, and its fault is none of brackets. -/
theorem readItems_within {inner : List Bracket} {item : PartialItem} {ts : List Token}
    (h : openAfter (inner ++ [outer]) ts = some []) (after : List Token) :
    readItems outer opened inner item (ts ++ after) =
      (readItems outer opened inner item ts).map (fun (items, close, rest) =>
        (items, close, rest ++ after)) ∧
    ∀ found, readItems outer opened inner item ts = .error found → ¬found.fault.OfBrackets := by
  induction ts generalizing inner item with
  | nil =>
    rw [show openAfter (inner ++ [outer]) [] = some (inner ++ [outer]) from rfl,
      Option.some.injEq] at h
    exact absurd h (by simp)
  | cons token ts ih =>
    cases hs : openStep inner token.kind with
    | some inner' =>
      rw [List.cons_append, readItems_cons hs, readItems_cons hs]
      rw [openAfter_cons, openStep_weaken hs, Option.bind_some] at h
      exact ih h
    | none =>
      obtain ⟨rfl, hclosing | ⟨hcomma | harrow | hsemicolon, hrest⟩⟩ := separator_cases hs h
      · simp only [List.cons_append, readItems.eq_def _ _ _ _ (token :: _), hclosing, if_true]
        cases hfinish : item.finish none with
        | error found => exact error_within (PartialItem.not_ofBrackets_of_finish hfinish)
        | ok last => exact ok_within rfl rfl
      · simp only [List.cons_append, readItems.eq_def _ _ _ _ (token :: _), hcomma]
        cases hfinish : item.finish (some token.start) with
        | error found => exact error_within (PartialItem.not_ofBrackets_of_finish hfinish)
        | ok done =>
          cases done with
          | none => exact error_within (show ¬Fault.OfBrackets .emptyElement by decide)
          | some done =>
            obtain ⟨heq, hfault⟩ := @ih [] .nothing hrest
            simp only [heq]
            cases hread : readItems outer opened [] .nothing ts with
            | error found => exact error_within (hfault found hread)
            | ok result => exact ok_within rfl rfl
      · simp only [List.cons_append, readItems.eq_def _ _ _ _ (token :: _), harrow]
        cases hkeyed : item.arrow token with
        | error found => exact error_within (PartialItem.not_ofBrackets_of_arrow hkeyed)
        | ok keyed => exact @ih [] keyed hrest
      · simp only [List.cons_append, readItems.eq_def _ _ _ _ (token :: _), hsemicolon]
        exact error_within (show ¬Fault.OfBrackets .unexpectedSemicolon by decide)

end

/-! ### Reading from a value on -/

/-- The opening of a literal is looked for in the first two tokens only. -/
theorem ArrayOpening.read?_append {ts after : List Token} (hne : ts ≠ [])
    (ha : ∀ t ∈ after.head?, t.kind ≠ .opening .round) :
    ArrayOpening.read? (ts ++ after) = (ArrayOpening.read? ts).map fun opening =>
      { opening with inside := opening.inside ++ after } := by
  cases ts with
  | nil => exact absurd rfl hne
  | cons first rest =>
    simp only [List.cons_append, ArrayOpening.read?]
    by_cases hfirst : first.kind = .opening .square
    · rw [if_pos hfirst, if_pos hfirst]
      rfl
    · rw [if_neg hfirst, if_neg hfirst]
      cases rest with
      | nil =>
        cases after with
        | nil => rfl
        | cons u after => exact if_neg fun h => ha u rfl h.2
      | cons bracket inside =>
        simp only [List.cons_append]
        split <;> rfl

/-- **What a value starts with is read within the value.** -/
theorem read?_within {ts after : List Token} (h : Balanced ts)
    (ha : ∀ t ∈ after.head?, t.kind ≠ .opening .round) :
    ArrayLiteral.read? (ts ++ after) =
      (ArrayLiteral.read? ts).map (Option.map fun (l, rest) => (l, rest ++ after)) ∧
    ∀ found, ArrayLiteral.read? ts = .error found → ¬found.fault.OfBrackets := by
  rw [ArrayLiteral.read?, ArrayLiteral.read?, ArrayOpening.read?_append h.1 ha]
  cases hopening : ArrayOpening.read? ts with
  | none => exact ok_within rfl rfl
  | some opening =>
    obtain ⟨op, hts, hop⟩ := ArrayOpening.opens_of_read? hopening
    have hinside : openAfter [opening.style.bracket] opening.inside = some [] := by
      have hall := h.2
      rwa [hts, openAfter_append, hop.openAfter, Option.bind_some] at hall
    obtain ⟨heq, hfault⟩ := @readItems_within opening.style.bracket opening.bracket.start []
      .nothing _ hinside after
    simp only [Option.map_some, heq]
    cases hread : readItems opening.style.bracket opening.bracket.start [] .nothing
        opening.inside with
    | error found => exact error_within (hfault found hread)
    | ok result => exact ok_within rfl rfl

end Script
end Scaffold

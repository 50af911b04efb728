/-
# Reading relocated tokens

To find the array literal that a file returns, tokens are told apart by their kinds and words by
their texts; positions are passed on. A relocation gives every token another one of the same kind
at another position, and leaves the words as they are. All reading goes with a relocation: of the
items of a literal (`readItems_relocate`), of a literal (`read?_relocate`), of what stands before
the `return` (`findReturn_relocate`), and of a file (`SourceFile.read_relocate`). That holds of
faults too: the same fault is found at the relocated position.
-/

import Scaffold.Proofs.Literal.Returned

namespace Scaffold
namespace Script

/-- Other tokens and positions for those of a source text. -/
structure Relocation where
  position : Nat → Nat
  token : Token → Token
  kind_eq : ∀ t, (token t).kind = t.kind
  start_eq : ∀ t, (token t).start = position t.start
  word_eq : ∀ t, t.kind = .word → (token t).text = t.text

namespace Relocation

variable (r : Relocation)

/-- The token ends where the position of its end goes. -/
def Fits (t : Token) : Prop := (r.token t).stop = r.position t.stop

/-- The fault at the relocated position. -/
def fault (found : FaultAt) : FaultAt := ⟨found.fault, r.position found.offset⟩

/-- What reading the relocated tokens comes to. -/
def outcome {α β : Type} (f : α → β) : Except FaultAt α → Except FaultAt β
  | .error found => .error (r.fault found)
  | .ok a => .ok (f a)

/-- The expression of the relocated tokens. -/
def expression (e : Expression) : Expression where
  tokens := e.tokens.map r.token
  nonempty := by simpa using e.nonempty

/-- The item with its parts relocated. -/
def item (i : Item) : Item := ⟨i.key.map r.expression, r.expression i.value, i.comma.map r.position⟩

/-- What has been read of an item, relocated. -/
def partialItem : PartialItem → PartialItem
  | .nothing => .nothing
  | .bare last before => .bare (r.token last) (before.map r.token)
  | .keyed key arrow value => .keyed (r.expression key) (r.token arrow) (value.map r.token)

/-- The opening of a literal, relocated. -/
def opening (o : ArrayOpening) : ArrayOpening :=
  ⟨o.style, r.position o.start, r.token o.bracket, o.inside.map r.token⟩

/-- The literal with its items and its ends relocated. -/
def literal (l : ArrayLiteral) : ArrayLiteral :=
  ⟨l.style, r.position l.start, r.position l.openStop, l.items.map r.item, r.position l.close⟩

/-- The source file as it is read from the relocated tokens. -/
def file (f : SourceFile) : SourceFile := ⟨f.tokens.map r.token, f.names, r.literal f.root⟩

/-! ### Items -/

/-- An expression is relocated token by token. -/
theorem expression_ofReversed (last : Token) (before : List Token) :
    r.expression (.ofReversed last before) = .ofReversed (r.token last) (before.map r.token) := by
  simp [expression, Expression.ofReversed]

/-- A token is put to an item before the move or after it. -/
theorem push_relocate (t : Token) (i : PartialItem) :
    (r.partialItem i).push (r.token t) = r.partialItem (i.push t) := by
  cases i <;> rfl

/-- An arrow is put to an item before the move or after it. -/
theorem arrow_relocate (t : Token) (i : PartialItem) :
    (r.partialItem i).arrow (r.token t) = r.outcome r.partialItem (i.arrow t) := by
  have hfault : FaultAt.mk .unexpectedArrow (r.token t).start =
      r.fault ⟨.unexpectedArrow, t.start⟩ := by
    rw [r.start_eq]
    rfl
  cases i with
  | bare last before =>
    simp only [partialItem, PartialItem.arrow, outcome, expression_ofReversed]
    rfl
  | nothing | keyed => exact congrArg Except.error hfault

/-- An item is ended before the move or after it. -/
theorem finish_relocate (comma : Option Nat) (i : PartialItem) :
    (r.partialItem i).finish (comma.map r.position) =
      r.outcome (Option.map r.item) (i.finish comma) := by
  cases i with
  | nothing => rfl
  | bare last before =>
    simp only [partialItem, PartialItem.finish, outcome, item, Option.map_some, Option.map_none,
      expression_ofReversed]
  | keyed key arrow value =>
    cases value with
    | nil =>
      simp only [partialItem, PartialItem.finish, outcome, List.map_nil, r.start_eq]
      rfl
    | cons last before =>
      simp only [partialItem, PartialItem.finish, outcome, item, Option.map_some, List.map_cons,
        expression_ofReversed]

/-- Items, the place of the closing bracket, and the tokens behind it. -/
def itemsRead : List Item × Nat × List Token → List Item × Nat × List Token :=
  fun (items, close, rest) => (items.map r.item, r.position close, rest.map r.token)

/-- A token that no expression goes on with ends the items, an item or a key, or is a fault. -/
theorem readItems_separator_relocate {outer : Bracket} {opened : Nat} {inner : List Bracket}
    {token : Token} {ts : List Token} (hs : openStep inner token.kind = none)
    (later : ∀ i, readItems outer (r.position opened) [] (r.partialItem i) (ts.map r.token) =
      r.outcome r.itemsRead (readItems outer opened [] i ts)) (i : PartialItem) :
    readItems outer (r.position opened) inner (r.partialItem i) (r.token token :: ts.map r.token) =
      r.outcome r.itemsRead (readItems outer opened inner i (token :: ts)) := by
  have hnone := r.finish_relocate none i
  have hcomma := r.finish_relocate (some token.start) i
  have harrow := r.arrow_relocate token i
  rw [readItems.eq_def _ _ _ _ (r.token token :: _), readItems.eq_def _ _ _ _ (token :: ts)]
  simp only [r.kind_eq, r.start_eq]
  generalize token.kind = kind at hs ⊢
  cases inner with
  | cons innermost others =>
    cases kind with
    | openTag | closeTag => rfl
    | closing shape =>
      simp only [openStep] at hs ⊢
      split at hs
      · cases hs
      · rename_i hne
        rw [if_neg hne, if_neg hne]
        rfl
    | _ => cases hs
  | nil =>
    cases kind with
    | openTag | closeTag | semicolon => rfl
    | closing shape =>
      simp only
      split
      · rw [Option.map_none] at hnone
        rw [hnone]
        cases i.finish none with
        | error => rfl
        | ok last => cases last <;> rfl
      · rfl
    | comma =>
      rw [Option.map_some] at hcomma
      simp only [hcomma]
      rcases i.finish (some token.start) with found | (_ | done)
      · rfl
      · rfl
      · have hlater : readItems outer (r.position opened) [] .nothing (ts.map r.token) =
            r.outcome r.itemsRead (readItems outer opened [] .nothing ts) := later .nothing
        simp only [outcome, Option.map_some, hlater]
        cases readItems outer opened [] .nothing ts <;> rfl
    | doubleArrow =>
      simp only [harrow]
      cases i.arrow token with
      | error => rfl
      | ok keyed => exact later keyed
    | _ => cases hs

/-- **The items of relocated tokens are the relocated items.** -/
theorem readItems_relocate {outer : Bracket} {opened : Nat} (inner : List Bracket)
    (i : PartialItem) (ts : List Token) :
    readItems outer (r.position opened) inner (r.partialItem i) (ts.map r.token) =
      r.outcome r.itemsRead (readItems outer opened inner i ts) := by
  induction ts generalizing inner i with
  | nil => rfl
  | cons token ts ih =>
    rw [List.map_cons]
    cases hs : openStep inner token.kind with
    | some inner' =>
      rw [readItems_cons (by rwa [r.kind_eq]), r.push_relocate, ih, readItems_cons hs]
    | none => exact r.readItems_separator_relocate hs (ih []) i

/-! ### Literals -/

/-- A relocated token is the same word. -/
theorem isWord_relocate (t : Token) (word : Text) : (r.token t).isWord word = t.isWord word := by
  unfold Token.isWord
  rw [r.kind_eq]
  by_cases hk : t.kind = .word
  · rw [r.word_eq t hk]
  · rw [beq_false_of_ne hk, Bool.false_and, Bool.false_and]

/-- A relocated literal is opened alike. -/
theorem opening_relocate (ts : List Token) :
    ArrayOpening.read? (ts.map r.token) = (ArrayOpening.read? ts).map r.opening := by
  rcases ts with _ | ⟨first, _ | ⟨bracket, inside⟩⟩
  · rfl
  · simp only [ArrayOpening.read?, List.map_cons, List.map_nil, r.kind_eq, r.start_eq]
    split <;> rfl
  · simp only [ArrayOpening.read?, List.map_cons, r.kind_eq, r.start_eq, r.isWord_relocate]
    split
    · rfl
    · split <;> rfl

/-- The bracket that opens a literal is one of the tokens. -/
theorem bracket_mem {ts : List Token} {o : ArrayOpening} (h : ArrayOpening.read? ts = some o) :
    o.bracket ∈ ts := by
  rcases ts with _ | ⟨first, _ | ⟨bracket, inside⟩⟩
  · cases h
  · simp only [ArrayOpening.read?, Option.ite_none_right_eq_some, Option.some.injEq] at h
    obtain ⟨-, rfl⟩ := h
    exact List.mem_cons_self
  · simp only [ArrayOpening.read?] at h
    split at h
    · obtain rfl := Option.some.inj h
      exact List.mem_cons_self
    · rw [Option.ite_none_right_eq_some] at h
      obtain rfl := Option.some.inj h.2
      exact List.mem_cons_of_mem _ List.mem_cons_self

/-- A literal, if there is one, and the tokens behind it. -/
def literalRead : Option (ArrayLiteral × List Token) → Option (ArrayLiteral × List Token) :=
  Option.map fun (l, rest) => (r.literal l, rest.map r.token)

/-- **The literal of relocated tokens is the relocated literal.** -/
theorem read?_relocate {ts : List Token} (hfits : ∀ t ∈ ts, r.Fits t) :
    ArrayLiteral.read? (ts.map r.token) = r.outcome r.literalRead (ArrayLiteral.read? ts) := by
  unfold ArrayLiteral.read?
  rw [r.opening_relocate]
  cases ho : ArrayOpening.read? ts with
  | none => rfl
  | some o =>
    obtain ⟨style, start, bracket, inside⟩ := o
    have hstop : (r.token bracket).stop = r.position bracket.stop := hfits _ (bracket_mem ho)
    have hitems : readItems style.bracket (r.position bracket.start) [] .nothing
        (inside.map r.token) =
          r.outcome r.itemsRead (readItems style.bracket bracket.start [] .nothing inside) :=
      r.readItems_relocate [] .nothing inside
    simp only [Option.map_some, opening, r.start_eq, hstop, hitems]
    cases readItems style.bracket bracket.start [] .nothing inside <;> rfl

/-! ### Files -/

/-- Relocated tokens end in the same local name. -/
theorem localName?_relocate (ts : List Token) : localName? (ts.map r.token) = localName? ts := by
  rcases ts with _ | ⟨keyword, _ | ⟨name, rest⟩⟩
  · rfl
  · rfl
  · simp only [List.map_cons, localName?, r.isWord_relocate, r.kind_eq]
    by_cases hname : name.kind = .word
    · rw [r.word_eq name hname]
    · simp only [hname, and_false, if_false]

/-- What is asked of the kind of the first token has the same answer after the move. -/
theorem any_head?_relocate (p : TokenKind → Bool) (ts : List Token) :
    (ts.map r.token).head?.any (fun t => p t.kind) = ts.head?.any fun t => p t.kind := by
  cases ts with
  | nil => rfl
  | cons t ts => exact congrArg p (r.kind_eq t)

/-- Relocated tokens import the same names. -/
theorem importsOf_relocate (group : Option Text) (ts : List Token) :
    importsOf group (ts.map r.token) = importsOf group ts := by
  have hcurly := r.any_head?_relocate (· == .opening .curly)
  fun_induction importsOf group ts with
  | case1 => rw [List.map_nil, importsOf]
  | case2 group token rest hword full hgroup ih =>
    rw [List.map_cons, importsOf, r.word_eq token hword, r.kind_eq, if_pos hword]
    simp only [hcurly, hgroup, if_true, ← List.map_drop]
    exact ih
  | case3 group token rest hword full hgroup name hname ih =>
    rw [List.map_cons, importsOf, r.word_eq token hword, r.kind_eq, if_pos hword]
    simp only [hcurly, hgroup, Bool.false_eq_true, if_false, r.localName?_relocate, hname,
      ← List.map_drop, ih]
    rfl
  | case4 group token rest hword full hgroup hname ih =>
    rw [List.map_cons, importsOf, r.word_eq token hword, r.kind_eq, if_pos hword]
    simp only [hcurly, hgroup, Bool.false_eq_true, if_false, r.localName?_relocate, hname, ih]
    rfl
  | case5 group token rest hword hcurly ih =>
    rw [List.map_cons, importsOf, r.kind_eq, if_neg hword, if_pos hcurly]
    exact ih
  | case6 group token rest hword hcurly ih =>
    rw [List.map_cons, importsOf, r.kind_eq, if_neg hword, if_neg hcurly]
    exact ih

/-- Relocated tokens import the same classes. -/
theorem classImports_relocate (ts : List Token) :
    classImports (ts.map r.token) = classImports ts := by
  cases ts with
  | nil => rfl
  | cons t ts =>
    unfold classImports
    rw [r.importsOf_relocate]
    simp only [List.map_cons, List.head?_cons, Option.any_some, r.isWord_relocate]
    rfl

/-- The names before the `return`, and the tokens behind it. -/
def returnFound : Option (Names × List Token) → Option (Names × List Token) :=
  Option.map fun (names, rest) => (names, rest.map r.token)

/-- **Relocated tokens declare the same names, and return the relocated tokens.** -/
theorem findReturn_relocate (names : Names) (depth : Nat) (fresh : Bool) (ts : List Token) :
    findReturn names depth fresh (ts.map r.token) =
      r.returnFound (findReturn names depth fresh ts) := by
  have hdepth : ∀ depth token, depthAfter depth (r.token token) = depthAfter depth token := by
    intro depth token
    simp only [depthAfter, r.kind_eq]
  fun_induction findReturn names depth fresh ts with
  | case1 => rw [List.map_nil, findReturn]; rfl
  | case2 names depth fresh token rest depth' hword hreturn =>
    rw [List.map_cons, findReturn, hdepth, r.kind_eq, if_pos hword, r.isWord_relocate,
      if_pos hreturn]
    rfl
  | case3 names depth fresh token rest depth' hword hreturn huse clause ih =>
    have hclause : (rest.map r.token).takeWhile (·.kind != .semicolon) = clause.map r.token := by
      rw [List.takeWhile_map]
      simp only [Function.comp_def, r.kind_eq]
      rfl
    rw [List.map_cons, findReturn, hdepth, r.kind_eq, if_pos hword, r.isWord_relocate,
      if_neg hreturn, r.isWord_relocate, if_pos huse]
    simp only [hclause, r.classImports_relocate, List.length_map, ← List.map_drop]
    exact ih
  | case4 names depth fresh token rest depth' hword hreturn huse declared ih =>
    rw [List.map_cons, findReturn, hdepth, r.kind_eq, if_pos hword, r.isWord_relocate,
      if_neg hreturn, r.isWord_relocate, if_neg huse, ← ih]
    cases rest with
    | nil => rfl
    | cons name rest =>
      simp only [List.map_cons, List.head?_cons, r.isWord_relocate, r.kind_eq, declared,
        dite_eq_ite]
      by_cases hname : name.kind = .word
      · rw [r.word_eq name hname]
      · simp only [beq_false_of_ne hname, Bool.and_false, Bool.false_eq_true, if_false]
  | case5 names depth fresh token rest depth' hword ih =>
    have hends : endsStatement (r.token token) = endsStatement token := by
      simp only [endsStatement, r.kind_eq]
    rw [List.map_cons, findReturn, hdepth, r.kind_eq, if_neg hword, hends]
    exact ih

/-- The end of a file is looked at by kinds only. -/
theorem checkEnd_relocate (length : Nat) (ts : List Token) :
    checkEnd (r.position length) (ts.map r.token) = r.outcome id (checkEnd length ts) := by
  rcases ts with _ | ⟨token, _ | ⟨extra, rest⟩⟩
  · rfl
  · simp only [checkEnd, List.map_cons, List.map_nil, r.kind_eq, r.start_eq]
    split
    · rfl
    · split <;> rfl
  · simp only [checkEnd, List.map_cons, r.kind_eq, r.start_eq]
    split
    · split <;> rfl
    · split <;> rfl

end Relocation

/-- **A file with relocated tokens is read as the relocated file**, or has the same fault at the
relocated position. -/
theorem SourceFile.read_relocate {source source' : Text} {tokens : List Token} (r : Relocation)
    (h : tokenize source = .ok tokens) (h' : tokenize source' = .ok (tokens.map r.token))
    (hlength : source'.length = r.position source.length) (hfits : ∀ t ∈ tokens, r.Fits t) :
    SourceFile.read source' = r.outcome r.file (SourceFile.read source) := by
  unfold SourceFile.read
  rw [h, h', hlength]
  simp only [bind, Except.bind, r.findReturn_relocate]
  cases hreturn : findReturn .global 0 true tokens with
  | none => rfl
  | some found =>
    obtain ⟨names, returned⟩ := found
    have hsub : ∀ t ∈ returned, r.Fits t := by
      obtain ⟨P, ret, rfl, -, -⟩ := findReturn_split hreturn
      exact fun t ht => hfits t (List.mem_append_right _ (List.mem_cons_of_mem _ ht))
    simp only [Relocation.returnFound, Option.map_some, r.read?_relocate hsub]
    cases ArrayLiteral.read? returned with
    | error => rfl
    | ok found =>
      cases found with
      | none =>
        cases returned with
        | nil => rfl
        | cons t ts =>
          simp only [Relocation.outcome, Relocation.literalRead, List.map_cons, List.head?_cons,
            Option.map_some, r.start_eq]
          rfl
      | some found =>
        obtain ⟨root, rest⟩ := found
        simp only [Relocation.outcome, Relocation.literalRead, Option.map_some,
          r.checkEnd_relocate]
        cases checkEnd source.length rest <;> rfl

end Script
end Scaffold

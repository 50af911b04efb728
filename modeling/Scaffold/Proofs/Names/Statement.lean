/-
# Statements before the `return`

How the statements before the `return` of a file are written: declarations of a namespace, import
statements, and others. `Spelled program ts` says that the tokens `ts` write the statements
`program`; of a keyword the case of the letters is left open, of a name nothing is.

An import statement lists names, or the names in a group that share a beginning. Each name may be
renamed, and in a group each may be marked as the name of a function or a constant. Of the other
statements only so much is asked that none of them is one of the two, and that the next statement
starts behind their last token (`Plain`).
-/

import Scaffold.Proofs.ClassName
import Scaffold.Proofs.Literal.Grammar

namespace Scaffold
namespace Script

/-! ### Names -/

/-- A name, segment by segment. -/
structure QualifiedName where
  first : Text
  more : List Text
deriving DecidableEq, Repr

namespace QualifiedName

/-- What is written behind the first segment. -/
def later (name : QualifiedName) : Text := name.more.flatMap ('\\' :: ·)

/-- The name as it is written. -/
def text (name : QualifiedName) : Text := name.first ++ name.later

/-- The last segment. -/
def last (name : QualifiedName) : Text := name.more.getLastD name.first

/-- The segments are identifiers. -/
def WellFormed (name : QualifiedName) : Prop :=
  ∀ segment ∈ name.first :: name.more, isIdentifier segment = true

instance (name : QualifiedName) : Decidable name.WellFormed :=
  inferInstanceAs (Decidable (∀ segment ∈ name.first :: name.more, isIdentifier segment = true))

/-- A name in an import statement: none of the words with a meaning of their own there. -/
def Importable (name : QualifiedName) : Prop :=
  name.WellFormed ∧ ∀ word ∈ ["function", "const", "as"],
    Text.equalsIgnoringCase name.text word.toList = false

instance (name : QualifiedName) : Decidable name.Importable :=
  inferInstanceAs (Decidable (_ ∧ _))

end QualifiedName

/-- A text that ends a segment, or has nothing in it. -/
def EndsSegment (before : Text) : Prop := before = [] ∨ ∃ text, before = text ++ ['\\']

/-- A name behind the end of a part is all that follows the last separator. -/
theorem EndsSegment.afterLast_append {before : Text} (h : EndsSegment before) {text : Text}
    (hno : '\\' ∉ text) : Text.afterLast '\\' (before ++ text) = text := by
  obtain rfl | ⟨before, rfl⟩ := h
  · exact Text.afterLast_of_not_mem hno
  · rw [List.append_assoc, List.singleton_append, Text.afterLast_append_cons,
      Text.afterLast_of_not_mem hno]

namespace QualifiedName

/-- The last segment is what stands behind the last separator. -/
theorem WellFormed.afterLast_append {name : QualifiedName} (h : name.WellFormed) {before : Text}
    (hbefore : EndsSegment before) :
    Text.afterLast '\\' (before ++ name.text) = name.last := by
  obtain ⟨first, more⟩ := name
  rcases List.eq_nil_or_concat' more with rfl | ⟨init, last, rfl⟩
  · rw [text, later, List.flatMap_nil, List.append_nil]
    exact hbefore.afterLast_append (not_mem_of_isIdentifier (h first List.mem_cons_self) rfl)
  · have hlast : '\\' ∉ last := not_mem_of_isIdentifier (h last (by simp)) rfl
    simp only [text, later, QualifiedName.last, List.flatMap_append, List.flatMap_singleton,
      List.getLastD_concat]
    rw [← List.append_assoc, ← List.append_assoc, Text.afterLast_append_cons,
      Text.afterLast_of_not_mem hlast]

/-- A well-formed name starts with another character than a separator. -/
theorem WellFormed.text_eq_cons {name : QualifiedName} (h : name.WellFormed) :
    ∃ c rest, name.text = c :: rest ∧ c ≠ '\\' := by
  have hfirst := h name.first List.mem_cons_self
  have hno : '\\' ∉ name.first := not_mem_of_isIdentifier hfirst rfl
  rw [text]
  cases hname : name.first with
  | nil =>
    rw [hname] at hfirst
    cases hfirst
  | cons c rest =>
    rw [hname] at hno
    exact ⟨c, rest ++ name.later, rfl, fun hc => hno (hc ▸ List.mem_cons_self)⟩

end QualifiedName

/-! ### Import statements -/

/-- The word stands before the name of a function or a constant. -/
def IsOtherKind (word : Text) : Prop :=
  Text.equalsIgnoringCase word "function".toList = true ∨
    Text.equalsIgnoringCase word "const".toList = true

instance (word : Text) : Decidable (IsOtherKind word) := inferInstanceAs (Decidable (_ ∨ _))

/-- A name with a separator in front or without. -/
def withLead (leading : Bool) (name : Text) : Text := if leading then '\\' :: name else name

/-- An imported name. -/
structure Clause where
  /-- The word before the name of a function or a constant. -/
  kind : Option Text
  leading : Bool
  name : QualifiedName
  /-- The name that the import is given in the file. -/
  rename : Option Text
deriving DecidableEq, Repr

/-- What the imported name is called in the file. -/
def Clause.localName (clause : Clause) : Text := clause.rename.getD clause.name.last

/-- What the names in a group begin with. -/
structure Group where
  leading : Bool
  base : QualifiedName
  /-- Whether white space or a comment stands between the name and the separator behind it. -/
  detached : Bool
  trailingComma : Bool
deriving DecidableEq, Repr

/-- An import statement. -/
structure UseStatement where
  /-- The word behind `use`, if the names are those of functions or constants. -/
  kind : Option Text
  group : Option Group
  clauses : List Clause
deriving DecidableEq, Repr

/-- The name can be imported, and a word before it says what else it is the name of. -/
structure Clause.WellFormed (clause : Clause) : Prop where
  kind : ∀ word ∈ clause.kind, IsOtherKind word
  name : clause.name.Importable

/-- The statement imports something, and each name in it can be imported. -/
structure UseStatement.WellFormed (u : UseStatement) : Prop where
  nonempty : u.clauses ≠ []
  kind : ∀ word ∈ u.kind, IsOtherKind word
  base : ∀ group ∈ u.group, group.base.Importable
  clauses : ∀ clause ∈ u.clauses, clause.WellFormed
  /-- Kinds are mixed in a group only. -/
  mixed : ∀ clause ∈ u.clauses, clause.kind.isSome → u.group.isSome ∧ u.kind = none
  /-- The names in a group are relative to what they begin with. -/
  relative : u.group.isSome → ∀ clause ∈ u.clauses, clause.leading = false

/-! ### Tokens of a statement -/

/-- A token that is a given word is a word. -/
theorem Token.kind_of_isWord {token : Token} {word : Text} (h : token.isWord word = true) :
    token.kind = .word := by
  rw [Token.isWord, Bool.and_eq_true] at h
  exact beq_iff_eq.1 h.1

/-- What is asked of a token. -/
inductive TokenForm where
  /-- The word, in upper or lower case. -/
  | keyword (word : Text)
  /-- This very word. -/
  | written (text : Text)
  | mark (kind : TokenKind)
deriving DecidableEq, Repr

/-- The token is written as the form says. -/
def TokenForm.Matches : TokenForm → Token → Prop
  | .keyword word, token => token.isWord word = true
  | .written text, token => token.kind = .word ∧ token.text = text
  | .mark kind, token => token.kind = kind

instance (form : TokenForm) (token : Token) : Decidable (form.Matches token) :=
  match form with
  | .keyword word => inferInstanceAs (Decidable (token.isWord word = true))
  | .written text => inferInstanceAs (Decidable (token.kind = .word ∧ token.text = text))
  | .mark kind => inferInstanceAs (Decidable (token.kind = kind))

/-- The tokens are written as the forms say. -/
def Follows (forms : List TokenForm) (ts : List Token) : Prop :=
  List.Forall₂ TokenForm.Matches forms ts

instance (forms : List TokenForm) (ts : List Token) : Decidable (Follows forms ts) :=
  inferInstanceAs (Decidable (List.Forall₂ _ _ _))

/-- Tokens that follow some forms start with one of the first form. -/
theorem Follows.of_cons {form : TokenForm} {forms : List TokenForm} {ts : List Token}
    (h : Follows (form :: forms) ts) :
    ∃ token us, ts = token :: us ∧ form.Matches token ∧ Follows forms us := by
  cases h with
  | cons hform h => exact ⟨_, _, rfl, hform, h⟩

/-- Tokens that follow forms one after the other part in two. -/
theorem Follows.of_append {forms forms' : List TokenForm} {ts : List Token}
    (h : Follows (forms ++ forms') ts) :
    ∃ us vs, ts = us ++ vs ∧ Follows forms us ∧ Follows forms' vs := by
  induction forms generalizing ts with
  | nil => exact ⟨[], ts, rfl, .nil, h⟩
  | cons form forms ih =>
    cases h with
    | cons hform h =>
      obtain ⟨us, vs, rfl, hus, hvs⟩ := ih h
      exact ⟨_ :: us, vs, rfl, .cons hform hus, hvs⟩

/-- A clause: a word that says its kind, the name, and what it is renamed to. -/
def Clause.forms (clause : Clause) : List TokenForm :=
  (clause.kind.map .written).toList ++ .written (withLead clause.leading clause.name.text) ::
    (clause.rename.elim [] fun name => [.keyword "as".toList, .written name])

/-- Clauses with a comma between each two. -/
def clauseForms (clauses : List Clause) : List TokenForm :=
  [TokenForm.mark .comma].intercalate (clauses.map Clause.forms)

/-- The head of a group. The last separator of its name may stand apart from the name. -/
def Group.forms (group : Group) : List TokenForm :=
  if group.detached then
    [.written (withLead group.leading group.base.text), .written ['\\'], .mark (.opening .curly)]
  else
    [.written (withLead group.leading (group.base.text ++ ['\\'])), .mark (.opening .curly)]

/-- What stands between `use` and the semicolon. -/
def UseStatement.forms (u : UseStatement) : List TokenForm :=
  (u.kind.map .written).toList ++
    match u.group with
    | none => clauseForms u.clauses
    | some group =>
      group.forms ++ (clauseForms u.clauses ++
        ((if group.trailingComma then [.mark .comma] else []) ++ [.mark (.closing .curly)]))

/-- A kind that no form has is not among the tokens. -/
theorem Follows.kind_ne {forms : List TokenForm} {ts : List Token} (h : Follows forms ts)
    {kind : TokenKind} (hword : kind ≠ .word) (hforms : .mark kind ∉ forms) :
    ∀ t ∈ ts, t.kind ≠ kind := by
  induction h with
  | nil => exact fun t ht => absurd ht List.not_mem_nil
  | @cons form token forms ts hform _ ih =>
    rw [List.mem_cons, not_or] at hforms
    refine List.forall_mem_cons.2 ⟨?_, ih hforms.2⟩
    rintro rfl
    cases form with
    | keyword word => exact hword (Token.kind_of_isWord hform)
    | written text => exact hword hform.1
    | mark kind => exact hforms.1 (congrArg _ hform)

/-- The semicolon ends an import statement and stands nowhere else in it. -/
theorem UseStatement.semicolon_not_mem_forms (u : UseStatement) :
    .mark .semicolon ∉ u.forms := by
  have hword : ∀ word : Option Text, .mark .semicolon ∉ (word.map TokenForm.written).toList := by
    rintro (_ | word) h
    · cases h
    · cases List.mem_singleton.1 h
  have hclause : ∀ clause : Clause, .mark .semicolon ∉ clause.forms := by
    intro clause h
    rcases List.mem_append.1 h with h | h
    · exact hword clause.kind h
    · cases hrename : clause.rename <;> simp [hrename] at h
  have hclauses : .mark .semicolon ∉ clauseForms u.clauses := by
    intro h
    rcases mem_intercalate h with h | ⟨forms, hforms, h⟩
    · cases h
    · obtain ⟨clause, -, rfl⟩ := List.mem_map.1 hforms
      exact hclause clause h
  intro h
  rcases List.mem_append.1 h with h | h
  · exact hword u.kind h
  cases hgroup : u.group with
  | none =>
    rw [hgroup] at h
    exact hclauses h
  | some group =>
    rw [hgroup] at h
    rcases List.mem_append.1 h with h | h
    · unfold Group.forms at h
      split at h <;> simp at h
    rcases List.mem_append.1 h with h | h
    · exact hclauses h
    · split at h <;> simp at h

/-! ### Programs -/

/-- The last token, if there is one, is one behind which a statement may start. -/
def EndsStatement (ts : List Token) : Prop :=
  ∀ last ∈ ts.getLast?, last.kind = .semicolon ∨ last.kind = .closing .curly

/-- Statements that declare no namespace and import nothing, and none of which is a `return`. -/
structure Plain (ts : List Token) : Prop where
  nested : Nested ts
  tagFree : TagFree ts
  ends : EndsStatement ts
  /-- Where a statement starts, no statement of these kinds does. -/
  quiet : ∀ us token vs, AtTop .word ts us token vs → EndsStatement us →
    token.isWord "return".toList = false ∧ token.isWord "use".toList = false ∧
      (token.isWord "namespace".toList = true → ∀ next ∈ vs.head?, next.kind ≠ .word)

/-- A statement before the `return`. -/
inductive Statement where
  /-- Declares the namespace of what follows. -/
  | declaration (name : QualifiedName)
  | use (statement : UseStatement)
  | other (tokens : List Token)
deriving DecidableEq, Repr

namespace Statement

/-- The statement declares or imports names, or it is plain. -/
def WellFormed : Statement → Prop
  | .declaration name => name.WellFormed
  | .use u => u.WellFormed
  | .other ts => Plain ts

/-- The tokens write the statement. -/
def SpelledBy : Statement → List Token → Prop
  | .declaration name, ts =>
    Follows [.keyword "namespace".toList, .written name.text, .mark .semicolon] ts
  | .use u, ts => Follows (.keyword "use".toList :: (u.forms ++ [.mark .semicolon])) ts
  | .other own, ts => ts = own

end Statement

/-- The tokens write the statements, one after the other. -/
inductive Spelled : List Statement → List Token → Prop
  | nil : Spelled [] []
  | cons {statement : Statement} {program : List Statement} {ts us : List Token}
      (h : statement.SpelledBy ts) (later : Spelled program us) :
      Spelled (statement :: program) (ts ++ us)

end Script
end Scaffold

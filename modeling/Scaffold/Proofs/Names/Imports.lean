/-
# What is read from an import statement

`UseStatement.declared` lists the classes that an import statement imports, and
`UseStatement.imported` lists what `classImports` finds in its tokens
(`UseStatement.WellFormed.classImports_eq`). The two differ where a group is written in one of two
ways:

| written | read |
| --- | --- |
| `function f` in a group of classes | classes `function` and `f` |
| a separator apart from its name, as in `P \{A}` | class `P`, and `A` without `P` |

For every other local name they agree (`UseStatement.WellFormed.filter_imported`).
-/

import Scaffold.Script.SourceFile
import Scaffold.Proofs.Names.Statement

namespace Scaffold
namespace Script

/-- The import is one of the local name. -/
def Import.isFor (localName : Text) (i : Import) : Bool :=
  Text.equalsIgnoringCase i.localName localName

/-! ### Declared and read -/

namespace Clause

/-- The class that the clause imports, behind what the names in its group begin with. -/
def declared (beginning : Text) (clause : Clause) : List Import :=
  if clause.kind = none then [⟨clause.localName, beginning ++ clause.name.text⟩] else []

/-- What is read from the clause: a word before the name is taken for a name too. -/
def imported (beginning : Text) (clause : Clause) : List Import :=
  (clause.kind.map fun word => ⟨word, beginning ++ word⟩).toList ++
    [⟨clause.localName, beginning ++ clause.name.text⟩]

/-- The local names in what is read from the clause. -/
def localNames (clause : Clause) : List Text := clause.kind.toList ++ [clause.localName]

end Clause

/-- What the names in the group begin with. -/
def Group.beginning (group : Group) : Text := group.base.text ++ ['\\']

namespace UseStatement

/-- The classes that the statement imports. -/
def declared (u : UseStatement) : List Import :=
  if u.kind.isSome then []
  else u.clauses.flatMap (Clause.declared (u.group.elim [] Group.beginning))

/-- What is read from the statement. -/
def imported (u : UseStatement) : List Import :=
  if u.kind.isSome then []
  else
    match u.group with
    | none => u.clauses.flatMap (Clause.imported [])
    | some group =>
      if group.detached then
        ⟨group.base.last, group.base.text⟩ :: u.clauses.flatMap (Clause.imported [])
      else u.clauses.flatMap (Clause.imported group.beginning)

/-- The local names for which something else may be read than is declared. -/
def strays (u : UseStatement) : List Text :=
  if u.kind.isSome then []
  else
    match u.group with
    | none => []
    | some group =>
      if group.detached then group.base.last :: u.clauses.flatMap Clause.localNames
      else (u.clauses.filter (·.kind.isSome)).flatMap Clause.localNames

end UseStatement

/-- An import is one of some local names only. -/
theorem filter_isFor_eq_nil {imports : List Import} {localName : Text}
    (h : ∀ i ∈ imports, Text.equalsIgnoringCase i.localName localName = false) :
    imports.filter (Import.isFor localName) = [] := by
  rw [List.filter_eq_nil_iff]
  intro i hi
  rw [Import.isFor, h i hi]
  exact Bool.false_ne_true

namespace Clause

variable {beginning : Text} {clause : Clause} {i : Import}

/-- An import that is read has one of the local names of its clause. -/
theorem localName_of_mem_imported (h : i ∈ clause.imported beginning) :
    i.localName ∈ clause.localNames := by
  rcases List.mem_append.1 h with h | h
  · obtain ⟨word, hword, rfl⟩ := Option.map_eq_some_iff.1 (Option.mem_toList.1 h)
    exact List.mem_append_left _ (Option.mem_toList.2 hword)
  · rw [List.mem_singleton.1 h]
    exact List.mem_append_right _ List.mem_cons_self

/-- An import that is declared has one of the local names of its clause. -/
theorem localName_of_mem_declared (h : i ∈ clause.declared beginning) :
    i.localName ∈ clause.localNames := by
  unfold declared at h
  split at h
  · rw [List.mem_singleton.1 h]
    exact List.mem_append_right _ List.mem_cons_self
  · cases h

/-- What a clause of a class declares is what is read from it. -/
theorem imported_eq_declared (h : clause.kind = none) :
    clause.imported beginning = clause.declared beginning := by
  rw [imported, declared, h, if_pos rfl]
  rfl

end Clause

/-- Outside groups, all names are of one kind. -/
theorem UseStatement.WellFormed.kind_eq_none {u : UseStatement} (h : u.WellFormed)
    (hgroup : u.group = none) : ∀ clause ∈ u.clauses, clause.kind = none := by
  intro clause hclause
  rw [← Option.not_isSome_iff_eq_none]
  intro hsome
  have hno := (h.mixed clause hclause hsome).1
  rw [hgroup] at hno
  cases hno

/-- **Strays aside, what is declared is read.** -/
theorem UseStatement.WellFormed.filter_imported {u : UseStatement} (h : u.WellFormed)
    {localName : Text}
    (hstrays : ∀ stray ∈ u.strays, Text.equalsIgnoringCase stray localName = false) :
    u.imported.filter (Import.isFor localName) = u.declared.filter (Import.isFor localName) := by
  unfold UseStatement.imported UseStatement.declared
  unfold UseStatement.strays at hstrays
  by_cases hkind : u.kind.isSome
  · rw [if_pos hkind, if_pos hkind]
  rw [if_neg hkind] at hstrays ⊢
  rw [if_neg hkind]
  cases hgroup : u.group with
  | none =>
    rw [Option.elim_none, List.flatMap_congr fun clause hclause =>
      Clause.imported_eq_declared (h.kind_eq_none hgroup clause hclause)]
  | some group =>
    rw [hgroup] at hstrays
    simp only [Option.elim_some] at hstrays ⊢
    split at hstrays
    · rename_i hdetached
      obtain ⟨hbase, hclauses⟩ := List.forall_mem_cons.1 hstrays
      rw [if_pos hdetached, filter_isFor_eq_nil, filter_isFor_eq_nil]
      · intro i hi
        obtain ⟨clause, hclause, hi⟩ := List.mem_flatMap.1 hi
        exact hclauses _ (List.mem_flatMap.2
          ⟨clause, hclause, Clause.localName_of_mem_declared hi⟩)
      · refine List.forall_mem_cons.2 ⟨hbase, fun i hi => ?_⟩
        obtain ⟨clause, hclause, hi⟩ := List.mem_flatMap.1 hi
        exact hclauses _ (List.mem_flatMap.2
          ⟨clause, hclause, Clause.localName_of_mem_imported hi⟩)
    · rename_i hattached
      rw [if_neg hattached, List.filter_flatMap, List.filter_flatMap]
      refine List.flatMap_congr fun clause hclause => ?_
      cases hclass : clause.kind with
      | none => rw [Clause.imported_eq_declared hclass]
      | some word =>
        have hmarked : clause ∈ u.clauses.filter (·.kind.isSome) :=
          List.mem_filter.2 ⟨hclause, by rw [hclass]; rfl⟩
        rw [Clause.declared, hclass, if_neg nofun, List.filter_nil, filter_isFor_eq_nil]
        exact fun i hi => hstrays _ (List.mem_flatMap.2
          ⟨clause, hmarked, Clause.localName_of_mem_imported hi⟩)

/-! ### Words of an import statement -/

/-- A text with a separator is no word without one. -/
theorem equalsIgnoringCase_eq_false {text word : Text} (h : '\\' ∈ text)
    (hword : '\\' ∉ word.map Char.toLower) : Text.equalsIgnoringCase text word = false := by
  rw [Text.equalsIgnoringCase, beq_eq_false_iff_ne]
  intro he
  have hmem : Char.toLower '\\' ∈ text.map Char.toLower := List.mem_map_of_mem h
  exact hword (he ▸ hmem)

/-- A word without a separator is written without one. -/
theorem not_mem_of_equalsIgnoringCase {text word : Text}
    (h : Text.equalsIgnoringCase text word = true) (hword : '\\' ∉ word.map Char.toLower) :
    '\\' ∉ text := by
  intro hmem
  rw [equalsIgnoringCase_eq_false hmem hword] at h
  cases h

/-- The words `function` and `const` have no separator. -/
theorem IsOtherKind.not_mem {word : Text} (h : IsOtherKind word) : '\\' ∉ word := by
  rcases h with h | h <;> exact not_mem_of_equalsIgnoringCase h (by decide)

/-- No name is one of the words with a meaning of their own, with a separator in front or not. -/
theorem QualifiedName.Importable.withLead {name : QualifiedName} (h : name.Importable)
    (leading : Bool) : ∀ word ∈ ["function", "const", "as"],
      Text.equalsIgnoringCase (withLead leading name.text) word.toList = false := by
  intro word hword
  cases leading with
  | false => exact h.2 word hword
  | true =>
    refine equalsIgnoringCase_eq_false List.mem_cons_self ?_
    simp only [List.mem_cons, List.not_mem_nil, or_false] at hword
    rcases hword with rfl | rfl | rfl <;> decide

/-- A name keeps its text where a leading separator is dropped. -/
theorem dropWhile_withLead {name : Text} (h : ∃ c rest, name = c :: rest ∧ c ≠ '\\')
    (leading : Bool) : (withLead leading name).dropWhile (· == '\\') = name := by
  obtain ⟨c, rest, rfl, hc⟩ := h
  have hdrop : (c :: rest).dropWhile (· == '\\') = c :: rest :=
    List.dropWhile_cons_of_neg (by simpa using hc)
  cases leading with
  | false => exact hdrop
  | true => rw [withLead, if_pos rfl, List.dropWhile_cons_of_pos rfl, hdrop]

/-! ### Reading clauses -/

/-- A word that nothing renames is imported under the name behind its last separator. -/
theorem importsOf_word {group : Option Text} {token : Token} {rest : List Token}
    (hk : token.kind = .word) (hopen : ∀ next ∈ rest.head?, next.kind ≠ .opening .curly)
    (hrename : localName? rest = none) :
    importsOf group (token :: rest) =
      ⟨Text.afterLast '\\' (group.getD [] ++ token.text.dropWhile (· == '\\')),
        group.getD [] ++ token.text.dropWhile (· == '\\')⟩ :: importsOf group rest := by
  have hclosed : ¬rest.head?.any (·.kind == .opening .curly) = true := by
    rw [Option.any_eq_true]
    rintro ⟨next, hnext, hk⟩
    exact hopen next hnext (beq_iff_eq.1 hk)
  rw [importsOf, if_pos hk]
  simp only
  rw [if_neg hclosed, hrename]

/-- A word before a brace is what the names in the group begin with. -/
theorem importsOf_group {group : Option Text} {token brace : Token} {rest : List Token}
    (hk : token.kind = .word) (hbrace : brace.kind = .opening .curly) :
    importsOf group (token :: brace :: rest) =
      importsOf (some (group.getD [] ++ token.text.dropWhile (· == '\\'))) rest := by
  have hopen : (brace :: rest).head?.any (·.kind == .opening .curly) = true := by
    rw [List.head?_cons, Option.any_some, hbrace]
    rfl
  rw [importsOf, if_pos hk]
  simp only
  rw [if_pos hopen, List.drop_one, List.tail_cons]

/-- A word that nothing follows but a mark is not renamed. -/
theorem localName?_eq_none {token : Token} {rest : List Token}
    (h : token.isWord "as".toList = false) : localName? (token :: rest) = none := by
  cases rest with
  | nil => rfl
  | cons next rest => rw [localName?, if_neg (by rw [h]; exact fun h => Bool.false_ne_true h.1)]

/-- The tokens behind a clause do not belong to it. -/
def EndsClause (rest : List Token) : Prop :=
  ∀ next ∈ rest.head?, next.kind = .comma ∨ next.kind = .closing .curly

/-- The end of a clause begins no local name. -/
theorem EndsClause.localName? {rest : List Token} (h : EndsClause rest) :
    Script.localName? rest = none := by
  cases rest with
  | nil => rfl
  | cons next rest =>
    refine localName?_eq_none ?_
    rcases h next rfl with hk | hk <;> simp [Token.isWord, hk]

/-- The end of a clause opens no group. -/
theorem EndsClause.not_opening {rest : List Token} (h : EndsClause rest) :
    ∀ next ∈ rest.head?, next.kind ≠ .opening .curly := by
  intro next hnext hk
  rcases h next hnext with hk' | hk' <;> rw [hk] at hk' <;> cases hk'

/-- The name of a clause is imported under the local name of the clause. -/
theorem Clause.WellFormed.importsOf_name {clause : Clause} (h : clause.WellFormed)
    {group : Option Text} (hgroup : EndsSegment (group.getD [])) {name : Token} {ts : List Token}
    (hname : (TokenForm.written (withLead clause.leading clause.name.text)).Matches name)
    (hts : Follows (clause.rename.elim [] fun name => [.keyword "as".toList, .written name]) ts)
    {rest : List Token} (hrest : EndsClause rest) :
    importsOf group (name :: (ts ++ rest)) =
      ⟨clause.localName, group.getD [] ++ clause.name.text⟩ :: importsOf group rest := by
  obtain ⟨hk, htext⟩ := hname
  have hfull : name.text.dropWhile (· == '\\') = clause.name.text := by
    rw [htext, dropWhile_withLead h.name.1.text_eq_cons]
  cases hrename : clause.rename with
  | none =>
    rw [hrename] at hts
    cases hts
    rw [List.nil_append, importsOf_word hk hrest.not_opening hrest.localName?, hfull,
      h.name.1.afterLast_append hgroup, Clause.localName, hrename, Option.getD_none]
  | some rename =>
    rw [hrename] at hts
    obtain ⟨keyword, us, rfl, hkeyword, hus⟩ := hts.of_cons
    obtain ⟨given, vs, rfl, hgiven, hvs⟩ := hus.of_cons
    cases hvs
    have hclosed : ¬(keyword :: given :: rest).head?.any (·.kind == .opening .curly) = true := by
      have hword := beq_iff_eq.1 (Bool.and_eq_true_iff.1 hkeyword).1
      simp [hword]
    have hlocal : localName? (keyword :: given :: rest) = some rename := by
      rw [localName?, if_pos ⟨hkeyword, hgiven.1⟩, hgiven.2]
    rw [List.cons_append, List.cons_append, List.nil_append, importsOf, if_pos hk]
    simp only
    rw [if_neg hclosed, hlocal, hfull, Clause.localName, hrename, Option.getD_some]
    rfl

/-- **What is read from a clause.** -/
theorem Clause.WellFormed.importsOf_append {clause : Clause} (h : clause.WellFormed)
    {group : Option Text} (hgroup : EndsSegment (group.getD [])) {ts : List Token}
    (hts : Follows clause.forms ts) {rest : List Token} (hrest : EndsClause rest) :
    importsOf group (ts ++ rest) = clause.imported (group.getD []) ++ importsOf group rest := by
  unfold Clause.forms at hts
  unfold Clause.imported
  cases hkind : clause.kind with
  | none =>
    rw [hkind] at hts
    obtain ⟨name, us, rfl, hname, hus⟩ := hts.of_cons
    rw [List.cons_append, h.importsOf_name hgroup hname hus hrest]
    rfl
  | some word =>
    rw [hkind] at hts
    obtain ⟨keyword, us, rfl, ⟨hk, htext⟩, hus⟩ := hts.of_cons
    obtain ⟨name, vs, rfl, hname, hvs⟩ := hus.of_cons
    have hno := (h.kind word hkind).not_mem
    have hdrop : keyword.text.dropWhile (· == '\\') = word := by
      rw [htext, List.dropWhile_eq_self_iff]
      exact fun hpos hfirst => hno (beq_iff_eq.1 hfirst ▸ List.getElem_mem hpos)
    have has : name.isWord "as".toList = false := by
      rw [Token.isWord, hname.2, h.name.withLead _ "as" (by simp), Bool.and_false]
    rw [List.cons_append, List.cons_append, importsOf_word hk ?_ (localName?_eq_none has), hdrop,
      hgroup.afterLast_append hno, h.importsOf_name hgroup hname hvs hrest]
    · rfl
    · intro next hnext
      cases hnext
      simp [hname.1]

/-- A mark between clauses is skipped. -/
theorem importsOf_mark {group : Option Text} {token : Token} (hk : token.kind ≠ .word)
    (hclose : token.kind ≠ .closing .curly) (rest : List Token) :
    importsOf group (token :: rest) = importsOf group rest := by
  rw [importsOf, if_neg hk, if_neg hclose]

/-- The clauses of a statement import what each of them imports. -/
theorem importsOf_clauses {clauses : List Clause} (hne : clauses ≠ [])
    (h : ∀ clause ∈ clauses, clause.WellFormed) {group : Option Text}
    (hgroup : EndsSegment (group.getD [])) {ts : List Token}
    (hts : Follows (clauseForms clauses) ts) {rest : List Token} (hrest : EndsClause rest) :
    importsOf group (ts ++ rest) =
      clauses.flatMap (Clause.imported (group.getD [])) ++ importsOf group rest := by
  induction clauses generalizing ts with
  | nil => exact absurd rfl hne
  | cons clause clauses ih =>
    obtain ⟨hclause, hlater⟩ := List.forall_mem_cons.1 h
    cases clauses with
    | nil =>
      rw [clauseForms, List.map_singleton, List.intercalate_singleton] at hts
      rw [hclause.importsOf_append hgroup hts hrest, List.flatMap_singleton]
    | cons next clauses =>
      rw [clauseForms, List.map_cons, List.map_cons, List.intercalate_cons_cons,
        List.append_assoc] at hts
      obtain ⟨us, vs, rfl, hus, hvs⟩ := hts.of_append
      obtain ⟨comma, ws, rfl, hcomma, hws⟩ := hvs.of_cons
      have hk : comma.kind = .comma := hcomma
      have hcut : EndsClause (comma :: ws ++ rest) := fun _ h => by
        cases h
        exact Or.inl hk
      rw [List.append_assoc, hclause.importsOf_append hgroup hus hcut, List.cons_append,
        importsOf_mark (by simp [hk]) (by simp [hk]),
        ih (List.cons_ne_nil _ _) hlater hws, ← List.append_assoc, ← List.flatMap_cons]

/-! ### Reading an import statement -/

/-- What is read up to the brace of a group. -/
theorem Group.importsOf_forms {group : Group} (h : group.base.Importable) {ts : List Token}
    (hts : Follows group.forms ts) (rest : List Token) :
    importsOf none (ts ++ rest) =
      if group.detached then
        ⟨group.base.last, group.base.text⟩ :: importsOf (some []) rest
      else importsOf (some group.beginning) rest := by
  unfold Group.forms at hts
  split at hts
  · rename_i hdetached
    obtain ⟨name, us, rfl, ⟨hk, htext⟩, hus⟩ := hts.of_cons
    obtain ⟨separator, vs, rfl, ⟨hk', htext'⟩, hvs⟩ := hus.of_cons
    obtain ⟨brace, ws, rfl, hbrace, hws⟩ := hvs.of_cons
    cases hws
    have hseparator : separator.isWord "as".toList = false := by
      rw [Token.isWord, htext']
      exact Bool.and_false _
    have hnext : ∀ next ∈ (separator :: brace :: rest).head?, next.kind ≠ .opening .curly := by
      intro next hnext
      cases hnext
      simp [hk']
    have hname : name.text.dropWhile (· == '\\') = group.base.text := by
      rw [htext, dropWhile_withLead h.1.text_eq_cons]
    have hlast : Text.afterLast '\\' ([] ++ group.base.text) = group.base.last :=
      h.1.afterLast_append (Or.inl rfl)
    rw [if_pos hdetached, List.cons_append, List.cons_append, List.cons_append, List.nil_append,
      importsOf_word hk hnext (localName?_eq_none hseparator), importsOf_group hk' hbrace, hname,
      htext', Option.getD_none, hlast]
    rfl
  · rename_i hattached
    obtain ⟨name, us, rfl, ⟨hk, htext⟩, hus⟩ := hts.of_cons
    obtain ⟨brace, vs, rfl, hbrace, hvs⟩ := hus.of_cons
    cases hvs
    have hbase : ∃ c rest, group.base.text ++ ['\\'] = c :: rest ∧ c ≠ '\\' := by
      obtain ⟨c, rest, hbase, hc⟩ := h.1.text_eq_cons
      exact ⟨c, rest ++ ['\\'], by rw [hbase, List.cons_append], hc⟩
    rw [if_neg hattached, List.cons_append, List.cons_append, List.nil_append,
      importsOf_group hk hbrace, htext, dropWhile_withLead hbase]
    rfl

/-- Nothing is read behind the clauses of a group. -/
theorem Group.importsOf_closing {group : Group} {ts : List Token}
    (hts : Follows ((if group.trailingComma then [.mark .comma] else []) ++
      [.mark (.closing .curly)]) ts) :
    EndsClause ts ∧ ∀ beginning, importsOf beginning ts = [] := by
  have hclosing : ∀ {us : List Token}, Follows [.mark (.closing .curly)] us →
      EndsClause us ∧ ∀ beginning, importsOf beginning us = [] := by
    intro us hus
    obtain ⟨brace, vs, rfl, hbrace, hvs⟩ := hus.of_cons
    have hk : brace.kind = .closing .curly := hbrace
    cases hvs
    refine ⟨fun next hnext => ?_, fun beginning => ?_⟩
    · cases hnext
      exact Or.inr hk
    · rw [importsOf, if_neg (by simp [hk]), if_pos hk, importsOf]
  split at hts
  · obtain ⟨comma, us, rfl, hcomma, hus⟩ := hts.of_cons
    have hk : comma.kind = .comma := hcomma
    refine ⟨fun next hnext => ?_, fun beginning => ?_⟩
    · cases hnext
      exact Or.inl hk
    · rw [importsOf_mark (by simp [hk]) (by simp [hk]), (hclosing hus).2]
  · exact hclosing hts

/-- The word behind `use` is the name of a class or what one begins with. -/
theorem UseStatement.WellFormed.exists_first {u : UseStatement} (h : u.WellFormed)
    (hkind : u.kind = none) :
    ∃ text later, u.forms = .written text :: later ∧ ¬IsOtherKind text := by
  have hname : ∀ (name : QualifiedName) (leading : Bool), name.Importable →
      ¬IsOtherKind (withLead leading name.text) := by
    rintro name leading hname (hother | hother)
    · rw [hname.withLead leading "function" (by simp)] at hother
      cases hother
    · rw [hname.withLead leading "const" (by simp)] at hother
      cases hother
  rw [UseStatement.forms, hkind, Option.map_none, Option.toList_none, List.nil_append]
  cases hgroup : u.group with
  | none =>
    cases hclauses : u.clauses with
    | nil => exact absurd hclauses h.nonempty
    | cons clause clauses =>
      have hmem : clause ∈ u.clauses := hclauses ▸ List.mem_cons_self
      have hclass := h.kind_eq_none hgroup clause hmem
      have hfirst : ∃ later, clauseForms (clause :: clauses) = clause.forms ++ later := by
        cases clauses with
        | nil => exact ⟨[], by rw [clauseForms, List.map_singleton, List.intercalate_singleton,
            List.append_nil]⟩
        | cons next clauses => exact ⟨_, by rw [clauseForms, List.map_cons, List.map_cons,
            List.intercalate_cons_cons, List.append_assoc]⟩
      obtain ⟨later, hlater⟩ := hfirst
      rw [Clause.forms, hclass] at hlater
      exact ⟨_, _, hlater, hname _ _ (h.clauses clause hmem).name⟩
  | some group =>
    have hbase := h.base group hgroup
    simp only [Group.forms]
    split
    · exact ⟨_, _, rfl, hname _ _ hbase⟩
    · refine ⟨_, _, rfl, fun hother => hother.not_mem ?_⟩
      cases group.leading <;> simp [Script.withLead]

/-- **What is read from an import statement.** -/
theorem UseStatement.WellFormed.classImports_eq {u : UseStatement} (h : u.WellFormed)
    {ts : List Token} (hts : Follows u.forms ts) : classImports ts = u.imported := by
  unfold UseStatement.imported
  cases hkind : u.kind with
  | some word =>
    rw [UseStatement.forms, hkind] at hts
    obtain ⟨keyword, us, rfl, ⟨hk, htext⟩, -⟩ := hts.of_cons
    refine if_pos ?_
    rw [List.head?_cons, Option.any_some, Token.isWord, Token.isWord, hk, htext, Bool.or_eq_true]
    exact h.kind word hkind
  | none =>
    obtain ⟨text, later, hforms, htext⟩ := h.exists_first hkind
    have hclasses : classImports ts = importsOf none ts := by
      rw [hforms] at hts
      obtain ⟨word, us, rfl, ⟨hk, rfl⟩, -⟩ := hts.of_cons
      refine if_neg fun hother => htext ?_
      rw [List.head?_cons, Option.any_some, Token.isWord, Token.isWord, hk, Bool.or_eq_true]
        at hother
      exact hother
    rw [hclasses, Option.isSome_none, if_neg Bool.false_ne_true]
    rw [UseStatement.forms, hkind, Option.map_none, Option.toList_none, List.nil_append] at hts
    cases hgroup : u.group with
    | none =>
      rw [hgroup] at hts
      have hread : importsOf none (ts ++ []) =
          u.clauses.flatMap (Clause.imported []) ++ importsOf none [] :=
        importsOf_clauses h.nonempty h.clauses (Or.inl rfl) hts (by simp [EndsClause])
      rwa [List.append_nil, importsOf, List.append_nil] at hread
    | some group =>
      rw [hgroup] at hts
      obtain ⟨us, vs, rfl, hus, hvs⟩ := hts.of_append
      obtain ⟨vs, ws, rfl, hvs, hws⟩ := hvs.of_append
      obtain ⟨hend, hnothing⟩ := Group.importsOf_closing hws
      have hread : ∀ beginning, EndsSegment beginning →
          importsOf (some beginning) (vs ++ ws) =
            u.clauses.flatMap (Clause.imported beginning) := by
        intro beginning hbeginning
        have hread : importsOf (some beginning) (vs ++ ws) =
            u.clauses.flatMap (Clause.imported beginning) ++ importsOf (some beginning) ws :=
          @importsOf_clauses _ h.nonempty h.clauses (some beginning) hbeginning _ hvs _ hend
        rwa [hnothing, List.append_nil] at hread
      rw [Group.importsOf_forms (h.base group hgroup) hus, hread [] (Or.inl rfl),
        hread group.beginning (Or.inr ⟨_, rfl⟩)]

/-- A name apart from the separator behind it is imported, and the group is read without it. -/
example : (SourceFile.read "<?php\nuse P \\\x7bA\x7d;\nreturn [];\n".toList).toOption.map
    (·.names.imports) = some [⟨"P".toList, "P".toList⟩, ⟨"A".toList, "A".toList⟩] := by
  decide +kernel

end Script
end Scaffold

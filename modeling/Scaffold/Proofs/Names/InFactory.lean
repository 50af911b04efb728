/-
# Names in the file of a factory

The file of a factory declares the namespace of the class that it builds and imports the interface
of containers (`Factory.preamble`). Behind that stands a class, in which three short names are
written: that of the factory, that of the interface and, twice, that of the class that is built
(`Factory.classWords`). What they stand for is decided by the namespace and by the one import
(`Script.Names.resolve_segment`). So they stand for what they should unless one of the other two is,
up to the case of its letters, the name of the interface (`Factory.names_in_source`,
`Factory.names_captured`).
-/

import Scaffold.Proofs.ClassName.Reread
import Scaffold.Proofs.Names.AtReturn
import Scaffold.Proofs.Project.FactoryFile

namespace Scaffold
namespace Script

/-! ### Names of one segment -/

/-- A name without separators is that of an import, or it belongs to the namespace. -/
theorem Names.resolve_segment {names : Names} {name : Text} (h : '\\' ∉ name) :
    names.resolve name = (names.import? name).elim (names.qualify name) Import.target := by
  have hhead : name.head? ≠ some '\\' := fun he => h (List.mem_of_mem_head? he)
  have hrelative : ¬Text.equalsIgnoringCase (name.take 10) "namespace\\".toList = true := by
    intro he
    have hlower : (name.take 10).map Char.toLower = "namespace\\".toList.map Char.toLower :=
      beq_iff_eq.1 he
    have hmem : '\\' ∈ (name.take 10).map Char.toLower := hlower ▸ by decide
    obtain ⟨c, hc, hlow⟩ := List.mem_map.1 hmem
    obtain rfl := eq_of_toLower_eq hlow (Or.inl (by decide))
    exact h (List.mem_of_mem_take hc)
  have hfirst : name.takeWhile (· != '\\') = name :=
    List.takeWhile_eq_self_iff.2 fun c hc => bne_iff_ne.2 (ne_of_mem_of_not_mem hc h)
  rw [resolve, if_neg hhead, if_neg hrelative]
  simp only [hfirst, List.drop_length, List.append_nil]
  cases names.import? name <;> rfl

/-- A list of identifiers with separators between them is a name, segment by segment. -/
theorem exists_qualifiedName {name : ClassName} (h : name.WellFormed) :
    ∃ q : QualifiedName, q.WellFormed ∧ q.text = name.text := by
  have htext : ['\\'].intercalate (name.text.splitOn '\\') = name.text :=
    List.intercalate_splitOn _
  unfold ClassName.WellFormed at h
  cases hparts : name.text.splitOn '\\' with
  | nil => exact absurd hparts (List.splitOn_ne_nil _ _)
  | cons first more =>
    rw [hparts] at h htext
    refine ⟨⟨first, more⟩, h, Eq.trans ?_ htext⟩
    clear hparts h htext
    induction more generalizing first with
    | nil => simp [QualifiedName.text, QualifiedName.later]
    | cons next more ih =>
      rw [List.intercalate_cons_cons, ← ih next, List.append_assoc]
      rfl

/-! ### Tokens of lexemes -/

namespace Lexeme

/-- Tokens of words behind others start where those end. -/
theorem tokens_append (offset : Nat) (ls ms : List Lexeme) :
    tokens offset (ls ++ ms) = tokens offset ls ++ tokens (offset + (written ls).length) ms := by
  induction ls generalizing offset with
  | nil => rfl
  | cons l ls ih =>
    simp only [List.cons_append, tokens, ih, written_cons, List.length_append, Nat.add_assoc]

/-- The tokens of words have their texts. -/
theorem map_text_tokens (offset : Nat) (ls : List Lexeme) :
    (tokens offset ls).map Token.text = ls.map Lexeme.text := by
  induction ls generalizing offset with
  | nil => rfl
  | cons l ls ih => rw [tokens, List.map_cons, List.map_cons, ih]

end Lexeme
end Script

namespace Factory

open Script (Lexeme Token Import Names Statement QualifiedName UseStatement Spelled Plain
  currentSpace? importsInEffect namesRead findReturn)

/-! ### The statements before the class -/

/-- The full name of the interface of containers. -/
def containerName : QualifiedName :=
  ⟨"Psr".toList, ["Container".toList, "ContainerInterface".toList]⟩

/-- The statement that imports it. -/
def containerUse : UseStatement := ⟨none, none, [⟨none, false, containerName, none⟩]⟩

/-- The tokens of this statement. -/
def useLexemes : List Lexeme :=
  [afterLine "use".toList, spaced .word containerName.text, joined .semicolon [';']]

/-- The class of a factory. -/
def classLexemes (target name : ClassName) : List Lexeme :=
  [afterLine "class".toList, spaced .word name.shortName] ++ (signatureLexemes ++
    ([spaced .word target.shortName] ++ (bodyLexemes ++
      ([spaced .word target.shortName] ++ endLexemes))))

/-- The texts of the tokens of a class `factory` that builds `target`. -/
def classWords (factory target : Text) : List Text :=
  ["class".toList, factory, ['\x7b'], "public".toList, "function".toList, "__invoke".toList, ['('],
    containerName.last, "$container".toList, [')'], [':'], target, ['\x7b'], "return".toList,
    "new".toList, target, ['('], [')'], [';'], ['\x7d'], ['\x7d']]

/-- A factory file is its head, the namespace, the import and the class. -/
theorem lexemes_eq (target name : ClassName) :
    lexemes target name =
      (headLexemes ++ (spaceLexemes (target.space?.getD []) ++ useLexemes)) ++
        classLexemes target name := by
  have huse : importLexemes = useLexemes ++ [afterLine "class".toList] := rfl
  rw [lexemes, huse, classLexemes]
  simp only [List.append_assoc, List.cons_append, List.nil_append]

/-- The words of the class in a factory file. -/
theorem map_text_classLexemes (target name : ClassName) :
    (classLexemes target name).map Lexeme.text = classWords name.shortName target.shortName := rfl

/-- What stands before the class in a namespace, or outside all. -/
def preamble (space : Option QualifiedName) : List Statement :=
  .other (Lexeme.tokens 5 headLexemes) ::
    ((space.map Statement.declaration).toList ++ [.use containerUse])

/-- The import of the container is well formed. -/
theorem containerUse_wellFormed : containerUse.WellFormed := by
  refine ⟨List.cons_ne_nil _ _, nofun, nofun, ?_, by decide, nofun⟩
  exact List.forall_mem_singleton.2 ⟨nofun, by decide⟩

/-- The directive in front neither declares nor imports anything. -/
theorem plain_head : Plain (Lexeme.tokens 5 headLexemes) := by
  refine ⟨Script.nested_iff.2 (by decide), by unfold Script.TagFree; decide,
    by unfold Script.EndsStatement; decide, ?_⟩
  rintro us token vs ⟨he, -, hk⟩ hends
  -- each word but the first stands behind a bracket or a symbol, which ends no statement
  rcases us with _ | ⟨_, _ | ⟨_, _ | ⟨_, _ | ⟨_, _ | ⟨_, _ | ⟨_, _ | ⟨_, us⟩⟩⟩⟩⟩⟩⟩ <;>
    simp [headLexemes, Lexeme.tokens, afterLine, joined] at he
  · obtain ⟨rfl, -⟩ := he
    exact ⟨rfl, rfl, fun hword => absurd hword Bool.false_ne_true⟩
  · obtain ⟨-, rfl, -⟩ := he
    cases hk
  · obtain ⟨-, rfl, rfl, -⟩ := he
    rcases hends _ rfl with h | h <;> cases h
  · obtain ⟨-, -, -, rfl, -⟩ := he
    cases hk
  · obtain ⟨-, -, -, rfl, rfl, -⟩ := he
    rcases hends _ rfl with h | h <;> cases h
  · obtain ⟨-, -, -, -, -, rfl, -⟩ := he
    cases hk
  · obtain ⟨-, -, -, -, -, -, rfl, -⟩ := he
    cases hk

/-- The statements before the class are well formed. -/
theorem preamble_wellFormed {space : Option QualifiedName} (h : ∀ q ∈ space, q.WellFormed) :
    ∀ statement ∈ preamble space, statement.WellFormed := by
  refine List.forall_mem_cons.2 ⟨plain_head, fun statement hstatement => ?_⟩
  rcases List.mem_append.1 hstatement with hstatement | hstatement
  · obtain ⟨q, hq, rfl⟩ := Option.map_eq_some_iff.1 (Option.mem_toList.1 hstatement)
    exact h q hq
  · obtain rfl := List.mem_singleton.1 hstatement
    exact containerUse_wellFormed

/-- The statements before the class are spelled by the head of the file. -/
theorem spelled_preamble {space : Option QualifiedName} (h : ∀ q ∈ space, q.WellFormed) :
    Spelled (preamble space) (Lexeme.tokens 5
      (headLexemes ++ (spaceLexemes ((space.map QualifiedName.text).getD []) ++ useLexemes))) := by
  rw [Lexeme.tokens_append, Lexeme.tokens_append]
  generalize 5 + (Lexeme.written headLexemes).length = start
  refine .cons rfl ?_
  have huse : ∀ offset, Spelled [.use containerUse] (Lexeme.tokens offset useLexemes) := by
    intro offset
    rw [← List.append_nil (Lexeme.tokens offset useLexemes)]
    exact .cons (.cons rfl (.cons ⟨rfl, rfl⟩ (.cons rfl .nil))) .nil
  cases space with
  | none => exact huse _
  | some q =>
    obtain ⟨c, rest, htext, -⟩ := (h q rfl).text_eq_cons
    have hspace : spaceLexemes q.text =
        [afterLine "namespace".toList, spaced .word q.text, joined .semicolon [';']] := by
      rw [spaceLexemes, htext]
      rfl
    simp only [Option.map_some, Option.getD_some, hspace]
    exact .cons (.cons rfl (.cons ⟨rfl, rfl⟩ (.cons rfl .nil))) (huse _)

/-- The interface of containers, imported under its short name. -/
def containerImport : Import := ⟨containerName.last, containerName.text⟩

/-- The file of a factory is an opening tag, the statements of a program and a class. Where the class
begins, these are the names known, and they are those that the program puts into effect. -/
structure ReadWith (target name : ClassName) (program : List Statement) (names : Names) :
    Prop where
  tokens : ∃ tag head body, Script.tokenize (source target name) = .ok (tag :: (head ++ body)) ∧
    Spelled program head ∧
    (∀ rest, findReturn .global 0 true (tag :: (head ++ rest)) = findReturn names 0 true rest) ∧
    body.map Token.text = classWords name.shortName target.shortName
  wellFormed : ∀ statement ∈ program, statement.WellFormed
  current : names.current = (currentSpace? program).map QualifiedName.text
  imports : names.imports = importsInEffect program

/-- The file of a factory is read with the namespace of its class and the one import. -/
theorem exists_readWith {target name : ClassName} (htarget : target.WellFormed)
    (hname : name.WellFormed) : ∃ program names, ReadWith target name program names ∧
      names.current = target.space? ∧ names.imports = [containerImport] := by
  obtain ⟨space, hspace, htext⟩ : ∃ space : Option QualifiedName, (∀ q ∈ space, q.WellFormed) ∧
      space.map QualifiedName.text = target.space? := by
    cases hspace : target.space? with
    | none => exact ⟨none, nofun, rfl⟩
    | some space =>
      obtain ⟨q, hq, htext⟩ := Script.exists_qualifiedName (htarget.parts.2 space hspace)
      exact ⟨some q, fun _ h => Option.some.inj h ▸ hq, congrArg some htext⟩
  have hnames : namesRead (preamble space) =
      ⟨space.map QualifiedName.text, [containerImport]⟩ := by
    cases space <;> rfl
  have hprogram := preamble_wellFormed hspace
  have htokens := tokenize_source htarget hname
  rw [lexemes_eq, Lexeme.tokens_append, ← htext] at htokens
  refine ⟨preamble space, namesRead (preamble space),
    ⟨⟨_, _, _, htokens, spelled_preamble hspace, ?_, ?_⟩, hprogram, rfl, ?_⟩, ?_, ?_⟩
  · exact (spelled_preamble hspace).findReturn_behind hprogram rfl
  · rw [Lexeme.map_text_tokens, map_text_classLexemes]
  · rw [hnames]
    cases space <;> rfl
  · rw [hnames, htext]
  · rw [hnames]

/-! ### What the names stand for -/

/-- The one import covers the names that are that of the interface, up to the case of letters. -/
theorem import?_container {names : Names} (h : names.imports = [containerImport]) (name : Text) :
    names.import? name =
      if Text.equalsIgnoringCase containerName.last name then some containerImport else none := by
  rw [Names.import?, h, List.findRev?_eq_find?_reverse, List.reverse_singleton,
    List.find?_singleton]
  rfl

/-- In a factory file a short name is the container or is qualified by the namespace. -/
theorem resolve_container {names : Names} (h : names.imports = [containerImport]) {name : Text}
    (hname : '\\' ∉ name) : names.resolve name =
      if Text.equalsIgnoringCase containerName.last name then containerName.text
      else names.qualify name := by
  rw [Names.resolve_segment hname, import?_container h]
  split <;> rfl

/-- In the namespace of a class its short name is the class. -/
theorem qualify_shortName {names : Names} {name : ClassName} (h : names.current = name.space?) :
    names.qualify name.shortName = name.text := by
  rw [Names.qualify, h]
  cases hspace : name.space? with
  | none => exact Text.afterLast_of_beforeLast?_eq_none hspace
  | some space => exact (Text.eq_append_of_beforeLast? hspace).symm

/-- **Names in the file of a factory.**  A class name was read, and the settings passed their check.
The file is an opening tag, some statements and a class. By the names that the statements put into
effect, the type of the parameter is the interface of containers, and the class that is declared is
the factory; its name is free unless it is that of the import, up to the case of letters. The type
that is returned, which is the class behind `new` too, is the class that the factory builds, unless
its short name is that of the import and it is another class. -/
theorem names_in_source {written : Text} {target : ClassName}
    (h : ClassName.parse written = .ok target) {settings checked : Settings}
    (hchecked : settings.check = .ok checked) :
    let name := target.withSuffix checked.suffix
    ∃ program names, ReadWith target name program names ∧
      names.resolve containerName.last = containerName.text ∧
      names.qualify name.shortName = name.text ∧
      (names.import? name.shortName = none ↔
        Text.equalsIgnoringCase containerName.last name.shortName = false) ∧
      (names.resolve target.shortName = target.text ↔
        Text.equalsIgnoringCase containerName.last target.shortName = false ∨
          target.text = containerName.text) := by
  intro name
  have htarget := ClassName.wellFormed_of_parse h
  have hsuffix := Settings.isIdentifier_suffix_of_check hchecked
  have hname : name.WellFormed := htarget.withSuffix (isIdentifier_iff.1 hsuffix).2
  have hspace : name.space? = target.space? :=
    (target.withSuffix_parts (not_mem_of_isIdentifier hsuffix rfl)).1
  obtain ⟨program, names, hread, hcurrent, himports⟩ := exists_readWith htarget hname
  refine ⟨program, names, hread, resolve_container himports (by decide),
    qualify_shortName (hcurrent.trans hspace.symm), ?_, ?_⟩
  · rw [import?_container himports]
    split
    · rename_i hcovered
      rw [hcovered]
      exact iff_of_false (Option.some_ne_none _) nofun
    · rename_i hfree
      exact iff_of_true rfl (Bool.eq_false_iff.2 hfree)
  · rw [resolve_container himports target.not_mem_shortName]
    split
    · rename_i hcovered
      rw [hcovered]
      exact ⟨fun he => .inr he.symm, fun he => (he.resolve_left nofun).symm⟩
    · rename_i hfree
      exact iff_of_true (qualify_shortName hcurrent) (.inl (Bool.eq_false_iff.2 hfree))

/-- The interface itself is covered by the import and stands for itself. -/
theorem names_in_source_of_container :
    let target : ClassName := ⟨"Psr\\Container\\ContainerInterface".toList⟩
    let name := target.withSuffix Settings.default.suffix
    ClassName.parse ('\\' :: target.text) = .ok target ∧
      Settings.default.check = .ok .default ∧ ∃ program names, ReadWith target name program names ∧
        names.import? name.shortName = none ∧ names.qualify name.shortName = name.text ∧
        names.resolve target.shortName = target.text := by
  intro target name
  have hread : ClassName.parse ('\\' :: target.text) = .ok target :=
    Script.eq_ok_of_toOption (by decide +kernel)
  have hchecked : Settings.default.check = .ok .default :=
    Script.eq_ok_of_toOption (by decide +kernel)
  obtain ⟨program, names, hnames, -, hqualify, hfree, hresolve⟩ := names_in_source hread hchecked
  exact ⟨hread, hchecked, program, names, hnames, hfree.2 (by decide +kernel), hqualify,
    hresolve.2 (.inr (by decide +kernel))⟩

/-- The file of a factory whose class is not the one that its `new` stands for, and the file of one
whose own name is that of the import. -/
theorem names_captured :
    let target : ClassName := ⟨"App\\ContainerInterface".toList⟩
    let container : ClassName := ⟨"App\\Container".toList⟩
    let ending : Settings := { Settings.default with suffix := "Interface".toList }
    ClassName.parse target.text = .ok target ∧ Settings.default.check = .ok .default ∧
      (∃ program names,
        ReadWith target (target.withSuffix Settings.default.suffix) program names ∧
        names.resolve target.shortName = "Psr\\Container\\ContainerInterface".toList) ∧
      ClassName.parse container.text = .ok container ∧ ending.check = .ok ending ∧
      ∃ program names, ReadWith container (container.withSuffix ending.suffix) program names ∧
        names.import? (container.withSuffix ending.suffix).shortName ≠ none := by
  intro target container ending
  have hread : ∀ {written : Text} {target : ClassName} {settings : Settings},
      ClassName.parse written = .ok target → settings.check = .ok settings →
      ∃ program names, ReadWith target (target.withSuffix settings.suffix) program names ∧
        names.imports = [containerImport] := by
    intro written target settings h hchecked
    have htarget := ClassName.wellFormed_of_parse h
    have hsuffix := Settings.isIdentifier_suffix_of_check hchecked
    obtain ⟨program, names, hnames, -, himports⟩ :=
      exists_readWith htarget (htarget.withSuffix (isIdentifier_iff.1 hsuffix).2)
    exact ⟨program, names, hnames, himports⟩
  have htarget : ClassName.parse target.text = .ok target :=
    Script.eq_ok_of_toOption (by decide +kernel)
  have hdefault : Settings.default.check = .ok .default :=
    Script.eq_ok_of_toOption (by decide +kernel)
  have hcontainer : ClassName.parse container.text = .ok container :=
    Script.eq_ok_of_toOption (by decide +kernel)
  have hending : ending.check = .ok ending := Script.eq_ok_of_toOption (by decide +kernel)
  obtain ⟨program, names, hnames, himports⟩ := hread htarget hdefault
  obtain ⟨program', names', hnames', himports'⟩ := hread hcontainer hending
  refine ⟨htarget, hdefault, ⟨program, names, hnames, ?_⟩, hcontainer, hending, program', names',
    hnames', ?_⟩
  · rw [resolve_container himports (by decide +kernel), if_pos (by decide +kernel)]
    rfl
  · rw [import?_container himports', if_pos (by decide +kernel)]
    exact Option.some_ne_none _

end Factory
end Scaffold

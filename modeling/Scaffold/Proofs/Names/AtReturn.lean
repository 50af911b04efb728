/-
# Names of classes at the `return`

At the `return` of a file, the namespace declared last is in effect, with the classes imported since
that declaration. The names that `findReturn` knows there give every class name what it stands for,
but for those whose imports are misread (`names_at_return`):

* imports from before the last declaration of a namespace are kept, so they cover local names that
  no import since then covers;
* in a group, functions and constants are read as classes, and the common beginning is lost where it
  is detached from its separator (`UseStatement.strays`).
-/

import Mathlib.Data.List.DropRight
import Scaffold.Proofs.Names.Program
import Scaffold.Proofs.Names.Resolution

namespace Scaffold
namespace Script

/-! ### What is in effect -/

namespace Statement

/-- The namespace that the statement declares. -/
def space? : Statement → Option QualifiedName
  | .declaration name => some name
  | _ => none

/-- The classes that the statement imports. -/
def declared : Statement → List Import
  | .use u => u.declared
  | _ => []

/-- What is read from the statement. -/
def imported : Statement → List Import
  | .use u => u.imported
  | _ => []

/-- The local names for which something else may be read than the statement declares. -/
def strays : Statement → List Text
  | .use u => u.strays
  | _ => []

end Statement

/-- The namespace declared last. -/
def currentSpace? (program : List Statement) : Option QualifiedName :=
  (program.filterMap Statement.space?).getLast?

/-- The statements behind the last declaration of a namespace. -/
def inSpace (program : List Statement) : List Statement :=
  program.rtakeWhile (·.space?.isNone)

/-- The statements up to the last declaration of a namespace. -/
def beforeSpace (program : List Statement) : List Statement :=
  program.rdropWhile (·.space?.isNone)

/-- The classes imported since the last declaration of a namespace. -/
def importsInEffect (program : List Statement) : List Import :=
  (inSpace program).flatMap Statement.declared

/-- The names read from a program. -/
def namesRead (program : List Statement) : Names where
  current := (currentSpace? program).map QualifiedName.text
  imports := program.flatMap Statement.imported

/-- Something else may be read for the local name than is declared. -/
def IsMisread (program : List Statement) (localName : Text) : Prop :=
  (∃ stray ∈ (inSpace program).flatMap Statement.strays,
      Text.equalsIgnoringCase stray localName = true) ∨
    ((∀ i ∈ importsInEffect program, i.isFor localName = false) ∧
      ∃ i ∈ (beforeSpace program).flatMap Statement.imported, i.isFor localName = true)

instance (program : List Statement) (localName : Text) : Decidable (IsMisread program localName) :=
  inferInstanceAs (Decidable (_ ∨ _))

/-- The names that a program leaves are its last namespace and all that it imports. -/
theorem foldl_update (names : Names) (program : List Statement) :
    program.foldl Statement.update names =
      ⟨((currentSpace? program).map QualifiedName.text).or names.current,
        names.imports ++ program.flatMap Statement.imported⟩ := by
  induction program generalizing names with
  | nil => simp [currentSpace?]
  | cons statement program ih =>
    rw [List.foldl_cons, ih, List.flatMap_cons, currentSpace?, currentSpace?]
    cases statement with
    | declaration name =>
      have hspace : (Statement.declaration name :: program).filterMap Statement.space? =
          name :: program.filterMap Statement.space? := rfl
      rw [hspace, List.getLast?_cons]
      cases (program.filterMap Statement.space?).getLast? <;> rfl
    | use u =>
      rw [List.filterMap_cons_none rfl, ← List.append_assoc]
      rfl
    | other ts =>
      rw [List.filterMap_cons_none rfl]
      rfl

/-- What is known behind the opening tag and a program. -/
theorem Spelled.findReturn_behind {program : List Statement} {ts : List Token}
    (h : Spelled program ts) (hp : ∀ statement ∈ program, statement.WellFormed) {tag : Token}
    (htag : tag.kind = .openTag) (rest : List Token) :
    findReturn .global 0 true (tag :: (ts ++ rest)) =
      findReturn (namesRead program) 0 true rest := by
  have hopened : findReturn .global 0 true (tag :: (ts ++ rest)) =
      findReturn .global 0 true (ts ++ rest) := by
    rw [findReturn]
    simp [depthAfter, endsStatement, htag]
  rw [hopened, h.findReturn_append hp, foldl_update, Names.global, Option.or_none,
    List.nil_append, namesRead]

/-- **What is known at the `return`.** -/
theorem Spelled.declares {program : List Statement} {ts : List Token} (h : Spelled program ts)
    (hp : ∀ statement ∈ program, statement.WellFormed) {tag r : Token} (htag : tag.kind = .openTag)
    (hr : r.isWord "return".toList = true) : Declares (tag :: ts) r (namesRead program) := by
  refine ⟨hr, fun rest => ?_⟩
  have hk := Token.kind_of_isWord hr
  rw [List.cons_append, h.findReturn_behind hp htag, findReturn, depthAfter_word 0 hk,
    if_pos ⟨rfl, rfl, hk⟩, if_pos hr]

/-- Where no stray import has the name, what is imported under it is what is declared. -/
theorem Statement.WellFormed.filter_imported {statement : Statement} (h : statement.WellFormed)
    {localName : Text}
    (hstrays : ∀ stray ∈ statement.strays, Text.equalsIgnoringCase stray localName = false) :
    statement.imported.filter (Import.isFor localName) =
      statement.declared.filter (Import.isFor localName) := by
  cases statement with
  | use u => exact UseStatement.WellFormed.filter_imported h hstrays
  | _ => rfl

/-- **Where nothing is misread, the import that counts is one in effect.** -/
theorem import?_namesRead {program : List Statement}
    (hp : ∀ statement ∈ program, statement.WellFormed) {localName : Text}
    (h : ¬IsMisread program localName) :
    (namesRead program).import? localName =
      (importsInEffect program).findRev? (Import.isFor localName) := by
  obtain ⟨hstrays, hstale⟩ := not_or.1 h
  have hsplit : program = beforeSpace program ++ inSpace program :=
    List.rdropWhile_append_rtakeWhile.symm
  have hread : ((inSpace program).flatMap Statement.imported).filter (Import.isFor localName) =
      (importsInEffect program).filter (Import.isFor localName) := by
    rw [importsInEffect, List.filter_flatMap, List.filter_flatMap]
    refine List.flatMap_congr fun statement hmem => ?_
    refine (hp statement ?_).filter_imported fun stray hstray => ?_
    · rw [hsplit]
      exact List.mem_append_right _ hmem
    · rw [Bool.eq_false_iff]
      exact fun he => hstrays ⟨stray, List.mem_flatMap.2 ⟨statement, hmem, hstray⟩, he⟩
  have hlast := congrArg List.getLast? hread
  rw [List.getLast?_filter, List.getLast?_filter, ← List.findRev?_eq_find?_reverse,
    ← List.findRev?_eq_find?_reverse] at hlast
  have himport : (namesRead program).import? localName =
      (((inSpace program).flatMap Statement.imported).findRev? (Import.isFor localName)).or
        (((beforeSpace program).flatMap Statement.imported).findRev? (Import.isFor localName)) := by
    have hall : program.flatMap Statement.imported =
        (beforeSpace program).flatMap Statement.imported ++
          (inSpace program).flatMap Statement.imported := by
      rw [← List.flatMap_append, ← hsplit]
    have himport : (namesRead program).import? localName =
        (program.flatMap Statement.imported).findRev? (Import.isFor localName) := rfl
    rw [himport, hall, List.findRev?_eq_find?_reverse, List.reverse_append, List.find?_append,
      ← List.findRev?_eq_find?_reverse, ← List.findRev?_eq_find?_reverse]
  rw [himport, hlast]
  cases hfound : (importsInEffect program).findRev? (Import.isFor localName) with
  | some i => rfl
  | none =>
    rw [findRev?_eq_none_iff] at hfound
    refine findRev?_eq_none_iff.2 fun i hi => ?_
    rw [Bool.eq_false_iff]
    exact fun hfor => hstale ⟨hfound, i, hi, hfor⟩

/-! ### At the `return` -/

/-- The first segment of the reference may be misread. -/
def ClassReference.IsMisread (program : List Statement) : ClassReference → Prop
  | .plain name => Script.IsMisread program name.first
  | _ => False

/-- **Class names at the `return`.** After the tokens of a program, the namespace known is the one
declared last, and a class name that is not misread is resolved to what it stands for there. A file
that returns an array literal is read with these names. -/
theorem names_at_return {program : List Statement}
    (hp : ∀ statement ∈ program, statement.WellFormed) {tag r : Token} {ts : List Token}
    (htag : tag.kind = .openTag) (hts : Spelled program ts)
    (hr : r.isWord "return".toList = true) :
    ∃ names, Declares (tag :: ts) r names ∧
      names.current = (currentSpace? program).map QualifiedName.text ∧
      names.imports = program.flatMap Statement.imported ∧
      (∀ ref : ClassReference, ref.WellFormed → ¬ref.IsMisread program → ∀ target,
        ref.Resolves (currentSpace? program) (importsInEffect program) target ↔
          names.resolve ref.text = target) ∧
      ∀ source op I c E root, tokenize source = .ok (tag :: ts ++ r :: (op ++ (I ++ c :: E))) →
        Spans op I c root → checkEnd source.length E = .ok () →
        SourceFile.read source =
          .ok ⟨tag :: ts ++ r :: (op ++ (I ++ c :: E)), names, root⟩ := by
  have hdeclares := hts.declares hp htag hr
  refine ⟨namesRead program, hdeclares, rfl, rfl, fun ref href hread target => ?_, ?_⟩
  · refine ClassReference.resolves_iff rfl href (fun name he => ?_) target
    subst he
    exact import?_namesRead hp hread
  · intro source op I c E root htokens hspans hend
    exact SourceFile.read_eq_ok_iff.2
      ⟨tag :: ts, r, op, I, c, E, htokens, rfl, hdeclares, hspans, hend⟩

/-- A group with a function in it: the class beside it is imported, and another name is relative to
the namespace. -/
theorem names_at_return_in_group :
    let source :=
      "<?php\nnamespace App;\nuse Lib\\\x7bA as B, function f\x7d;\nf();\nreturn [];\n".toList
    ∃ file, SourceFile.read source = .ok file ∧
      file.names.resolve "B".toList = "Lib\\A".toList ∧
      file.names.resolve "C".toList = "App\\C".toList := by
  intro source
  let space : List Token := [⟨.word, 6, "namespace".toList⟩, ⟨.word, 16, "App".toList⟩,
    ⟨.semicolon, 19, ";".toList⟩]
  let uses : List Token := [⟨.word, 21, "use".toList⟩, ⟨.word, 25, "Lib\\".toList⟩,
    ⟨.opening .curly, 29, ['\x7b']⟩, ⟨.word, 30, "A".toList⟩, ⟨.word, 32, "as".toList⟩,
    ⟨.word, 35, "B".toList⟩, ⟨.comma, 36, ",".toList⟩, ⟨.word, 38, "function".toList⟩,
    ⟨.word, 47, "f".toList⟩, ⟨.closing .curly, 48, ['\x7d']⟩, ⟨.semicolon, 49, ";".toList⟩]
  let call : List Token := [⟨.word, 51, "f".toList⟩, ⟨.opening .round, 52, "(".toList⟩,
    ⟨.closing .round, 53, ")".toList⟩, ⟨.semicolon, 54, ";".toList⟩]
  let u : UseStatement := ⟨none, some ⟨false, ⟨"Lib".toList, []⟩, false, false⟩,
    [⟨none, false, ⟨"A".toList, []⟩, some "B".toList⟩,
      ⟨some "function".toList, false, ⟨"f".toList, []⟩, none⟩]⟩
  let program : List Statement := [.declaration ⟨"App".toList, []⟩, .use u, .other call]
  have hu : u.WellFormed := by
    refine ⟨List.cons_ne_nil _ _, nofun, by decide, ?_, by decide, by decide⟩
    simp only [u, List.forall_mem_cons]
    exact ⟨⟨nofun, by decide⟩, ⟨by decide, by decide⟩, nofun⟩
  have hcall : Plain call := by
    refine ⟨nested_iff.2 (by decide), by unfold TagFree; decide, by unfold EndsStatement; decide,
      ?_⟩
    rintro us token vs ⟨he, -, hk⟩ -
    rcases us with _ | ⟨_, _ | ⟨_, _ | ⟨_, _ | ⟨_, us⟩⟩⟩⟩ <;> simp [call] at he
    · obtain ⟨rfl, -⟩ := he
      exact ⟨rfl, rfl, nofun⟩
    · obtain ⟨-, rfl, -⟩ := he
      cases hk
    · obtain ⟨-, -, rfl, -⟩ := he
      cases hk
    · obtain ⟨-, -, -, rfl, -⟩ := he
      cases hk
  have hp : ∀ statement ∈ program, statement.WellFormed := by
    simp only [program, List.forall_mem_cons]
    exact ⟨(by decide : QualifiedName.WellFormed _), hu, hcall, nofun⟩
  have hspelled : Spelled program (space ++ (uses ++ (call ++ []))) :=
    .cons (by decide : Follows _ _) (.cons (by decide : Follows _ _) (.cons rfl .nil))
  let tag : Token := ⟨.openTag, 0, "<?php".toList⟩
  let r : Token := ⟨.word, 56, "return".toList⟩
  let bracket : Token := ⟨.opening .square, 63, "[".toList⟩
  let c : Token := ⟨.closing .square, 64, "]".toList⟩
  have hspans : Spans [bracket] [] c ⟨.short, 63, 64, [], 64⟩ :=
    ⟨@Opens.short bracket rfl, .nil, rfl, rfl⟩
  obtain ⟨names, -, -, -, hresolve, hread⟩ := @names_at_return program hp tag r _ rfl hspelled rfl
  refine ⟨_, hread source _ [] c [⟨.semicolon, 65, ";".toList⟩] _
    (eq_ok_of_toOption (by decide +kernel)) hspans rfl, ?_, ?_⟩
  · refine (hresolve (.plain ⟨"B".toList, []⟩) ⟨rfl, by decide⟩ ?_ _).1 ?_
    · show ¬IsMisread program _
      decide
    · exact @ClassReference.Resolves.imported _ _ ⟨"B".toList, []⟩ [] []
        ⟨"B".toList, "Lib\\A".toList⟩ rfl rfl nofun
  · refine (hresolve (.plain ⟨"C".toList, []⟩) ⟨rfl, by decide⟩ ?_ _).1 ?_
    · show ¬IsMisread program _
      decide
    · exact @ClassReference.Resolves.unimported _ _ ⟨"C".toList, []⟩ (by decide)

/-- The source text writes the program and is read, and the reference, which stands for `meant`, is
resolved to `found`. -/
def ResolvedTo (source : Text) (program : List Statement) (ref : ClassReference)
    (meant found : Text) : Prop :=
  ∃ file tag ts r rest, SourceFile.read source = .ok file ∧
    file.tokens = tag :: ts ++ r :: rest ∧ Spelled program ts ∧
    (∀ statement ∈ program, statement.WellFormed) ∧ ref.WellFormed ∧
    ref.Resolves (currentSpace? program) (importsInEffect program) meant ∧
    file.names.resolve ref.text = found

/-- An import covers a name in the next namespace, and a function in a group hides a class. -/
theorem imports_misread :
    let foo : UseStatement := ⟨none, none, [⟨none, false, ⟨"Lib".toList, ["Foo".toList]⟩, none⟩]⟩
    let f : UseStatement := ⟨none, some ⟨false, ⟨"Lib".toList, []⟩, false, false⟩,
      [⟨some "function".toList, false, ⟨"f".toList, []⟩, none⟩]⟩
    ResolvedTo "<?php\nnamespace A;\nuse Lib\\Foo;\nnamespace B;\nreturn [];\n".toList
        [.declaration ⟨"A".toList, []⟩, .use foo, .declaration ⟨"B".toList, []⟩]
        (.plain ⟨"Foo".toList, []⟩) "B\\Foo".toList "Lib\\Foo".toList ∧
      ResolvedTo "<?php\nuse Lib\\\x7bfunction f\x7d;\nreturn [];\n".toList [.use f]
        (.plain ⟨"f".toList, []⟩) "f".toList "Lib\\f".toList := by
  intro foo f
  have hfoo : foo.WellFormed := by
    refine ⟨List.cons_ne_nil _ _, nofun, nofun, ?_, by decide, nofun⟩
    exact List.forall_mem_singleton.2 ⟨nofun, by decide⟩
  have hf : f.WellFormed := by
    refine ⟨List.cons_ne_nil _ _, nofun, by decide, ?_, by decide, by decide⟩
    exact List.forall_mem_singleton.2 ⟨by decide, by decide⟩
  let tag : Token := ⟨.openTag, 0, "<?php".toList⟩
  constructor
  · let space : List Token := [⟨.word, 6, "namespace".toList⟩, ⟨.word, 16, "A".toList⟩,
      ⟨.semicolon, 17, ";".toList⟩]
    let uses : List Token := [⟨.word, 19, "use".toList⟩, ⟨.word, 23, "Lib\\Foo".toList⟩,
      ⟨.semicolon, 30, ";".toList⟩]
    let next : List Token := [⟨.word, 32, "namespace".toList⟩, ⟨.word, 42, "B".toList⟩,
      ⟨.semicolon, 43, ";".toList⟩]
    let r : Token := ⟨.word, 45, "return".toList⟩
    let rest : List Token := [⟨.opening .square, 52, "[".toList⟩,
      ⟨.closing .square, 53, "]".toList⟩, ⟨.semicolon, 54, ";".toList⟩]
    have hspelled : Spelled [.declaration ⟨"A".toList, []⟩, .use foo, .declaration ⟨"B".toList, []⟩]
        (space ++ (uses ++ (next ++ []))) :=
      .cons (by decide : Follows _ _) (.cons (by decide : Follows _ _)
        (.cons (by decide : Follows _ _) .nil))
    refine ⟨⟨tag :: (space ++ (uses ++ (next ++ []))) ++ r :: rest,
      ⟨some "B".toList, [⟨"Foo".toList, "Lib\\Foo".toList⟩]⟩, ⟨.short, 52, 53, [], 53⟩⟩, tag, _, r,
      rest, eq_ok_of_toOption (by decide +kernel), rfl, hspelled, ?_, ⟨rfl, by decide⟩,
      @ClassReference.Resolves.unimported _ _ ⟨"Foo".toList, []⟩ (by decide), rfl⟩
    simp only [List.forall_mem_cons]
    exact ⟨(by decide : QualifiedName.WellFormed _), hfoo, (by decide : QualifiedName.WellFormed _),
      nofun⟩
  · let uses : List Token := [⟨.word, 6, "use".toList⟩, ⟨.word, 10, "Lib\\".toList⟩,
      ⟨.opening .curly, 14, ['\x7b']⟩, ⟨.word, 15, "function".toList⟩, ⟨.word, 24, "f".toList⟩,
      ⟨.closing .curly, 25, ['\x7d']⟩, ⟨.semicolon, 26, ";".toList⟩]
    let r : Token := ⟨.word, 28, "return".toList⟩
    let rest : List Token := [⟨.opening .square, 35, "[".toList⟩,
      ⟨.closing .square, 36, "]".toList⟩, ⟨.semicolon, 37, ";".toList⟩]
    have hspelled : Spelled [.use f] (uses ++ []) := .cons (by decide : Follows _ _) .nil
    refine ⟨⟨tag :: (uses ++ []) ++ r :: rest,
      ⟨none, [⟨"function".toList, "Lib\\function".toList⟩, ⟨"f".toList, "Lib\\f".toList⟩]⟩,
      ⟨.short, 35, 36, [], 36⟩⟩, tag, _, r,
      rest, eq_ok_of_toOption (by decide +kernel), rfl, hspelled, List.forall_mem_singleton.2 hf,
      ⟨rfl, by decide⟩, @ClassReference.Resolves.unimported _ _ ⟨"f".toList, []⟩ (by decide), rfl⟩

end Script
end Scaffold

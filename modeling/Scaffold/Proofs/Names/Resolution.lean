/-
# What a class name stands for

A class name with a separator in front is the full name. Any other is relative to the namespace,
unless its first segment is the local name of an imported class (`ClassReference.Resolves`).
`Names.resolve` finds what a name stands for where it knows the namespace and the last import of
the first segment (`ClassReference.resolves_iff`).
-/

import Scaffold.Proofs.Literal.Returned
import Scaffold.Proofs.Names.Imports
import Scaffold.Proofs.Scan.Opening

namespace Scaffold
namespace Script

/-! ### The last element of a kind -/

/-- The last element that satisfies a predicate, and none behind it does. -/
theorem findRev?_eq_some_iff {α : Type} {p : α → Bool} {l : List α} {a : α} :
    l.findRev? p = some a ↔
      p a = true ∧ ∃ before after, l = before ++ a :: after ∧ ∀ b ∈ after, p b = false := by
  rw [List.findRev?_eq_find?_reverse, List.find?_eq_some_iff_append]
  refine and_congr_right fun _ => ⟨?_, ?_⟩
  · rintro ⟨before, after, he, hbefore⟩
    refine ⟨after.reverse, before.reverse, ?_, fun b hb => ?_⟩
    · simpa using congrArg List.reverse he
    · simpa using hbefore b (List.mem_reverse.1 hb)
  · rintro ⟨before, after, rfl, hafter⟩
    refine ⟨after.reverse, before.reverse, by simp, fun b hb => ?_⟩
    rw [hafter b (List.mem_reverse.1 hb)]
    rfl

/-- No element satisfies the predicate. -/
theorem findRev?_eq_none_iff {α : Type} {p : α → Bool} {l : List α} :
    l.findRev? p = none ↔ ∀ a ∈ l, p a = false := by
  simp

/-! ### References to classes -/

/-- A class name in a file. -/
inductive ClassReference where
  /-- With a separator in front. -/
  | full (name : QualifiedName)
  /-- Behind the word `namespace`. -/
  | relative (keyword : Text) (name : QualifiedName)
  | plain (name : QualifiedName)
deriving DecidableEq, Repr

namespace ClassReference

/-- The name as it is written. -/
def text : ClassReference → Text
  | .full name => '\\' :: name.text
  | .relative keyword name => keyword ++ '\\' :: name.text
  | .plain name => name.text

/-- The name is one, and it stands behind the keyword `namespace` just where the reference is
relative to the namespace. -/
def WellFormed : ClassReference → Prop
  | .full name => name.WellFormed
  | .relative keyword name =>
    Text.equalsIgnoringCase keyword "namespace".toList = true ∧ name.WellFormed
  | .plain name =>
    Text.equalsIgnoringCase name.first "namespace".toList = false ∧ name.WellFormed

/-- A name in a namespace, or outside all. -/
def inside : Option QualifiedName → QualifiedName → Text
  | none, name => name.text
  | some space, name => space.text ++ '\\' :: name.text

/-- The full name that the reference stands for, in a namespace and under some imports. An import of
a local name hides those before it. -/
inductive Resolves (space : Option QualifiedName) (imports : List Import) :
    ClassReference → Text → Prop
  | full {name : QualifiedName} : Resolves space imports (.full name) name.text
  | relative {keyword : Text} {name : QualifiedName} :
      Resolves space imports (.relative keyword name) (inside space name)
  | imported {name : QualifiedName} {before after : List Import} {i : Import}
      (he : imports = before ++ i :: after) (hi : i.isFor name.first = true)
      (hafter : ∀ j ∈ after, j.isFor name.first = false) :
      Resolves space imports (.plain name) (i.target ++ name.later)
  | unimported {name : QualifiedName} (h : ∀ i ∈ imports, i.isFor name.first = false) :
      Resolves space imports (.plain name) (inside space name)

/-- What a name without a keyword resolves to. -/
theorem resolves_plain_iff {space : Option QualifiedName} {imports : List Import}
    {name : QualifiedName} {target : Text} :
    Resolves space imports (.plain name) target ↔
      ((imports.findRev? (Import.isFor name.first)).elim (inside space name)
        fun i => i.target ++ name.later) = target := by
  constructor
  · intro h
    cases h with
    | imported he hi hafter =>
      rw [findRev?_eq_some_iff.2 ⟨hi, _, _, he, hafter⟩, Option.elim_some]
    | unimported hno => rw [findRev?_eq_none_iff.2 hno, Option.elim_none]
  · rintro rfl
    cases hfound : imports.findRev? (Import.isFor name.first) with
    | some i =>
      obtain ⟨hi, before, after, he, hafter⟩ := findRev?_eq_some_iff.1 hfound
      exact .imported he hi hafter
    | none => exact .unimported (findRev?_eq_none_iff.1 hfound)

end ClassReference

/-! ### Resolving -/

/-- What follows the first part of a name starts with a separator, if there is anything. -/
theorem QualifiedName.later_eq (name : QualifiedName) :
    name.later = [] ∨ ∃ rest, name.later = '\\' :: rest := by
  obtain ⟨first, more⟩ := name
  cases more with
  | nil => exact Or.inl rfl
  | cons segment more => exact Or.inr ⟨_, rfl⟩

/-- The first part of a name ends before the separator. -/
theorem takeWhile_segment {segment : Text} (h : '\\' ∉ segment) (rest : Text) :
    (segment ++ '\\' :: rest).takeWhile (· != '\\') = segment :=
  takeWhile_append_cons (fun _ hc => bne_iff_ne.2 (ne_of_mem_of_not_mem hc h))
    (bne_self_eq_false _) rest

/-- The first segment ends at the first separator. -/
theorem QualifiedName.WellFormed.takeWhile_text {name : QualifiedName} (h : name.WellFormed) :
    name.text.takeWhile (· != '\\') = name.first := by
  have hno : '\\' ∉ name.first := not_mem_of_isIdentifier (h name.first List.mem_cons_self) rfl
  rw [QualifiedName.text]
  rcases name.later_eq with hlater | ⟨rest, hlater⟩
  · rw [hlater, List.append_nil, List.takeWhile_eq_self_iff]
    exact fun c hc => bne_iff_ne.2 (ne_of_mem_of_not_mem hc hno)
  · rw [hlater, takeWhile_segment hno]

namespace Names

variable {names : Names}

/-- A name in the namespace, which is one of segments. -/
theorem qualify_eq_inside {space : Option QualifiedName}
    (h : names.current = space.map QualifiedName.text) (name : QualifiedName) :
    names.qualify name.text = ClassReference.inside space name := by
  rw [qualify, h]
  cases space <;> rfl

/-- A name that starts with the keyword is qualified by the namespace. -/
theorem resolve_relative {keyword : Text}
    (h : Text.equalsIgnoringCase keyword "namespace".toList = true) (rest : Text) :
    names.resolve (keyword ++ '\\' :: rest) = names.qualify rest := by
  have hno := not_mem_of_equalsIgnoringCase h (by decide)
  have hlower : keyword.map Char.toLower = "namespace".toList.map Char.toLower := beq_iff_eq.1 h
  have hlength : keyword.length = 9 := by simpa using congrArg List.length hlower
  have hhead : (keyword ++ '\\' :: rest).head? ≠ some '\\' := by
    cases keyword with
    | nil => cases hlength
    | cons c keyword =>
      intro he
      exact hno (Option.some.inj he ▸ List.mem_cons_self)
  have hsplit : keyword ++ '\\' :: rest = (keyword ++ ['\\']) ++ rest := by simp
  have hten : (keyword ++ ['\\']).length = 10 := by rw [List.length_append, hlength]; rfl
  have hkeyword : Text.equalsIgnoringCase ((keyword ++ '\\' :: rest).take 10)
      "namespace\\".toList = true := by
    rw [hsplit, List.take_left' hten, Text.equalsIgnoringCase, List.map_append, hlower]
    rfl
  rw [resolve, if_neg hhead, if_pos hkeyword, hsplit, List.drop_left' hten]

/-- A name is resolved by the import of its first part, or qualified by the namespace. -/
theorem resolve_plain {name : QualifiedName} (h : name.WellFormed)
    (hkeyword : Text.equalsIgnoringCase name.first "namespace".toList = false) :
    names.resolve name.text =
      (names.import? name.first).elim (names.qualify name.text)
        fun found => found.target ++ name.later := by
  obtain ⟨c, rest, htext, hc⟩ := h.text_eq_cons
  have hhead : name.text.head? ≠ some '\\' := by
    rw [htext]
    exact fun he => hc (Option.some.inj he)
  have hrelative : ¬Text.equalsIgnoringCase (name.text.take 10) "namespace\\".toList = true := by
    intro he
    -- the keyword would be all that stands before the first separator
    have hlower : (name.text.take 10).map Char.toLower =
        "namespace".toList.map Char.toLower ++ ['\\'] := beq_iff_eq.1 he
    obtain ⟨keyword, behind, hten, hfirst, hbehind⟩ := List.map_eq_append_iff.1 hlower
    obtain ⟨d, rfl, hd⟩ := List.map_eq_singleton_iff.1 hbehind
    obtain rfl := eq_of_toLower_eq hd (Or.inl (by decide))
    have hword : Text.equalsIgnoringCase keyword "namespace".toList = true := beq_iff_eq.2 hfirst
    have hno := not_mem_of_equalsIgnoringCase hword (by decide)
    have hsplit : name.text = keyword ++ '\\' :: name.text.drop 10 := by
      rw [List.append_cons, ← hten, List.take_append_drop]
    have htake := takeWhile_segment hno (name.text.drop 10)
    rw [← hsplit, h.takeWhile_text] at htake
    rw [htake, hword] at hkeyword
    cases hkeyword
  have hlater : name.text.drop name.first.length = name.later := List.drop_left
  rw [resolve, if_neg hhead, if_neg hrelative]
  simp only [h.takeWhile_text, hlater]
  cases names.import? name.first <;> rfl

end Names

/-- **A reference is resolved to what it stands for** where the last import of its first segment is
found. -/
theorem ClassReference.resolves_iff {space : Option QualifiedName} {imports : List Import}
    {names : Names} (hspace : names.current = space.map QualifiedName.text) {ref : ClassReference}
    (h : ref.WellFormed) (himport : ∀ name, ref = .plain name →
      names.import? name.first = imports.findRev? (Import.isFor name.first)) (target : Text) :
    ref.Resolves space imports target ↔ names.resolve ref.text = target := by
  cases ref with
  | full name =>
    have hresolve : names.resolve ('\\' :: name.text) = name.text := if_pos rfl
    rw [ClassReference.text, hresolve]
    constructor
    · intro h
      cases h
      rfl
    · rintro rfl
      exact .full
  | relative keyword name =>
    rw [ClassReference.text, Names.resolve_relative h.1, Names.qualify_eq_inside hspace]
    constructor
    · intro h
      cases h
      rfl
    · rintro rfl
      exact .relative
  | plain name =>
    rw [resolves_plain_iff, ClassReference.text, Names.resolve_plain h.2 h.1, himport name rfl,
      Names.qualify_eq_inside hspace]

end Script
end Scaffold

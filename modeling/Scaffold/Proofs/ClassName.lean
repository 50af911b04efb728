/-
# Names of classes

A class name that was read consists of identifiers with a separator between each two
(`ClassName.wellFormed_of_parse`), also after an ending has been added to its short name
(`ClassName.WellFormed.withSuffix`). So the scanner takes the whole name for one word
(`ClassName.WellFormed.chars`), and so it takes its namespace and its short name
(`ClassName.WellFormed.parts`).
-/

import Mathlib.Data.List.TakeWhile
import Mathlib.Tactic.Tauto
import Scaffold.Script.Scan
import Scaffold.Settings

namespace Scaffold

/-- What stands in parts put together with a separator is the separator or stands in a part. -/
theorem mem_intercalate {α : Type} {sep d : α} {parts : List (List α)}
    (h : d ∈ [sep].intercalate parts) :
    d = sep ∨ ∃ part ∈ parts, d ∈ part := by
  induction parts with
  | nil => cases h
  | cons part parts ih =>
    cases parts with
    | nil =>
      rw [List.intercalate_singleton] at h
      exact Or.inr ⟨part, List.mem_singleton_self _, h⟩
    | cons next parts =>
      rw [List.intercalate_cons_cons] at h
      rcases List.mem_append.1 h with h | h
      · rcases List.mem_append.1 h with h | h
        · exact Or.inr ⟨part, List.mem_cons_self, h⟩
        · exact Or.inl (List.mem_singleton.1 h)
      · rcases ih h with h | ⟨part, hpart, h⟩
        · exact Or.inl h
        · exact Or.inr ⟨part, List.mem_cons_of_mem _ hpart, h⟩

/-- A suffix to parts that are put together is a suffix to the last of them. -/
theorem intercalate_concat_append (sep : Text) (init : List Text) (last suffix : Text) :
    sep.intercalate (init ++ [last]) ++ suffix = sep.intercalate (init ++ [last ++ suffix]) := by
  induction init with
  | nil => rw [List.nil_append, List.nil_append, List.intercalate_singleton,
      List.intercalate_singleton]
  | cons part init ih =>
    cases init with
    | nil =>
      simp only [List.cons_append, List.nil_append, List.intercalate_cons_cons,
        List.intercalate_singleton, List.append_assoc]
    | cons next init =>
      simp only [List.cons_append, List.intercalate_cons_cons, List.append_assoc] at ih ⊢
      rw [ih]

/-- Two lists of parts are put together with a separator between them. -/
theorem intercalate_append {sep : Char} {before after : List Text} (hb : before ≠ [])
    (ha : after ≠ []) :
    [sep].intercalate (before ++ after) =
      [sep].intercalate before ++ sep :: [sep].intercalate after := by
  induction before with
  | nil => exact absurd rfl hb
  | cons segment before ih =>
    cases before with
    | nil =>
      obtain ⟨next, after, rfl⟩ := List.exists_cons_of_ne_nil ha
      rw [List.singleton_append, List.intercalate_cons_cons, List.intercalate_singleton,
        List.append_assoc]
      rfl
    | cons next before =>
      have hrest := ih (List.cons_ne_nil _ _)
      rw [List.cons_append] at hrest ⊢
      rw [List.cons_append, List.intercalate_cons_cons, hrest, List.intercalate_cons_cons]
      simp only [List.append_assoc]

/-! ### The last separator -/

namespace Text

/-- A text with a separator is cut at the last one. -/
theorem eq_append_of_beforeLast? {sep : Char} {text before : Text}
    (h : beforeLast? sep text = some before) : text = before ++ sep :: afterLast sep text := by
  unfold beforeLast? at h
  have hsplit := List.takeWhile_append_dropWhile (p := (· != sep)) (l := text.reverse)
  split at h
  · cases h
  · rename_i c later hd
    cases h
    have hc := List.head?_dropWhile_not (· != sep) text.reverse
    rw [hd] at hc hsplit
    obtain rfl : c = sep := by simpa using hc
    have := congrArg List.reverse hsplit
    simpa [afterLast] using this.symm

/-- Without the separator, all of the text follows the last one. -/
theorem afterLast_of_beforeLast?_eq_none {sep : Char} {text : Text}
    (h : beforeLast? sep text = none) : afterLast sep text = text := by
  unfold beforeLast? at h
  split at h
  · rename_i hd
    have hsplit := List.takeWhile_append_dropWhile (p := (· != sep)) (l := text.reverse)
    rw [hd, List.append_nil] at hsplit
    rw [afterLast, hsplit, List.reverse_reverse]
  · cases h

/-- No separator stands after the last one. -/
theorem not_mem_afterLast (sep : Char) (text : Text) : sep ∉ afterLast sep text := by
  intro hmem
  exact absurd (List.mem_takeWhile_imp (List.mem_reverse.1 hmem)) (by simp)

/-- A text without the separator is all that follows the last one. -/
theorem afterLast_of_not_mem {sep : Char} {text : Text} (h : sep ∉ text) :
    afterLast sep text = text := by
  have hall : ∀ c ∈ text.reverse, (c != sep) = true := fun c hc =>
    bne_iff_ne.2 (ne_of_mem_of_not_mem (List.mem_reverse.1 hc) h)
  rw [afterLast, List.takeWhile_eq_self_iff.2 hall, List.reverse_reverse]

/-- What stands before a separator does not count. -/
theorem afterLast_append_cons (sep : Char) (before text : Text) :
    afterLast sep (before ++ sep :: text) = afterLast sep text := by
  have hstop : (sep :: before.reverse).takeWhile (· != sep) = [] :=
    List.takeWhile_cons_of_neg (by simp)
  rw [afterLast, afterLast, List.reverse_append, List.reverse_cons, List.append_assoc,
    List.singleton_append, List.takeWhile_append, hstop, List.append_nil]
  split
  · rename_i hall
    rw [(List.takeWhile_prefix _).eq_of_length hall]
  · rfl

end Text

/-! ### Identifiers -/

/-- An identifier, character by character. -/
theorem isIdentifier_iff {text : Text} : isIdentifier text = true ↔
    text.head?.any isIdentifierStart ∧ ∀ c ∈ text, isIdentifierChar c = true := by
  cases text with
  | nil => exact iff_of_false nofun fun h => absurd h.1 (by decide)
  | cons c rest =>
    have hstart : isIdentifierStart c = true → isIdentifierChar c = true := by
      simp only [isIdentifierStart, isIdentifierChar, Bool.or_eq_true, Char.isAlphanum]
      tauto
    simp only [isIdentifier, Bool.and_eq_true, List.all_eq_true, List.head?_cons, Option.any_some,
      List.forall_mem_cons]
    tauto

/-- No other character stands in an identifier. -/
theorem not_mem_of_isIdentifier {name : Text} {c : Char} (h : isIdentifier name = true)
    (hc : isIdentifierChar c = false) : c ∉ name := by
  intro hmem
  rw [(isIdentifier_iff.1 h).2 c hmem] at hc
  cases hc

/-- Settings that pass their check end the names of factories with an identifier. -/
theorem Settings.isIdentifier_suffix_of_check {settings checked : Settings}
    (h : settings.check = .ok checked) : isIdentifier checked.suffix = true := by
  unfold check at h
  split at h
  · cases h
  · rename_i hidentifier
    split at h
    · cases h
    · obtain rfl := Except.ok.inj h
      exact not_not.1 hidentifier

/-- Identifiers are made of word characters. -/
theorem isWordChar_of_isIdentifier {text : Text} (h : isIdentifier text = true) :
    ∀ d ∈ text, Script.isWordChar d = true := by
  intro d hd
  have hchar := (isIdentifier_iff.1 h).2 d hd
  simp only [isIdentifierChar, Script.isWordChar, Bool.or_eq_true, decide_eq_true_eq] at hchar ⊢
  tauto

namespace ClassName

/-- The parts of the name between the separators are identifiers; so there is a first one, and no
separator before it. -/
def WellFormed (name : ClassName) : Prop :=
  ∀ part ∈ name.text.splitOn '\\', isIdentifier part = true

/-- A name that is read is well formed. -/
theorem wellFormed_of_parse {written : Text} {name : ClassName}
    (h : ClassName.parse written = .ok name) : name.WellFormed := by
  unfold ClassName.parse at h
  simp only at h
  split at h
  · rename_i hall
    cases h
    exact List.all_eq_true.1 hall
  · cases h

/-- The characters of a class name: a name has some, they are word characters, and the first is no
separator. -/
theorem WellFormed.chars {name : ClassName} (h : name.WellFormed) :
    ∃ c more, name.text = c :: more ∧ c ≠ '\\' ∧ ∀ d ∈ name.text, Script.isWordChar d = true := by
  have hsplit : ['\\'].intercalate (name.text.splitOn '\\') = name.text :=
    List.intercalate_splitOn _
  have hchars : ∀ d ∈ name.text, Script.isWordChar d = true := by
    intro d hd
    rw [← hsplit] at hd
    rcases mem_intercalate hd with rfl | ⟨part, hpart, hd⟩
    · rfl
    · exact isWordChar_of_isIdentifier (h part hpart) d hd
  cases htext : name.text with
  | nil =>
    have hempty := h []
    rw [htext, List.splitOn_nil] at hempty
    exact absurd (hempty (List.mem_singleton_self _)) (by decide)
  | cons c more =>
    refine ⟨c, more, rfl, ?_, htext ▸ hchars⟩
    rintro rfl
    have hempty := h []
    have hfirst : ('\\' :: more).splitOn '\\' = [] :: more.splitOn '\\' :=
      List.splitOn_append_cons_self [] more
    rw [htext, hfirst] at hempty
    exact absurd (hempty List.mem_cons_self) (by decide)

/-- A name stays one with more characters of an identifier behind it. -/
theorem WellFormed.withSuffix {name : ClassName} (h : name.WellFormed) {suffix : Text}
    (hs : ∀ c ∈ suffix, isIdentifierChar c = true) : (name.withSuffix suffix).WellFormed := by
  have hne : name.text.splitOn '\\' ≠ [] := List.splitOn_ne_nil _ _
  obtain ⟨init, last, hparts⟩ : ∃ init last, name.text.splitOn '\\' = init ++ [last] :=
    ⟨_, _, (List.dropLast_concat_getLast hne).symm⟩
  rw [WellFormed, hparts] at h
  have hlast := isIdentifier_iff.1 (h last (by simp))
  have hparts' : ∀ part ∈ init ++ [last ++ suffix], isIdentifier part = true := by
    intro part hpart
    rcases List.mem_append.1 hpart with hpart | hpart
    · exact h part (List.mem_append_left _ hpart)
    · rw [List.mem_singleton.1 hpart, isIdentifier_iff]
      refine ⟨?_, fun c hc => (List.mem_append.1 hc).elim (hlast.2 c) (hs c)⟩
      cases last with
      | nil => cases hlast.1
      | cons c more => exact hlast.1
  have hsplit : (name.text ++ suffix).splitOn '\\' = init ++ [last ++ suffix] := by
    have hname : ['\\'].intercalate (name.text.splitOn '\\') = name.text :=
      List.intercalate_splitOn _
    rw [← hname, hparts, intercalate_concat_append]
    refine List.splitOn_intercalate _ (fun part hpart hmem => ?_) (List.concat_ne_nil _ _)
    exact absurd ((isIdentifier_iff.1 (hparts' part hpart)).2 _ hmem) (by decide)
  rw [WellFormed, ClassName.withSuffix, hsplit]
  exact hparts'

/-- The short name is an identifier, and the namespace is a name like that of a class. -/
theorem WellFormed.parts {name : ClassName} (h : name.WellFormed) :
    isIdentifier name.shortName = true ∧
      ∀ space, name.space? = some space → (⟨space⟩ : ClassName).WellFormed := by
  have hshort := List.splitOn_eq_singleton (Text.not_mem_afterLast '\\' name.text)
  cases hspace : name.space? with
  | none =>
    refine ⟨h _ ?_, nofun⟩
    rw [← Text.afterLast_of_beforeLast?_eq_none hspace, hshort]
    exact List.mem_singleton_self _
  | some space =>
    have hsplit := List.splitOn_append_cons_self (a := '\\') space (Text.afterLast '\\' name.text)
    rw [← Text.eq_append_of_beforeLast? hspace, hshort] at hsplit
    refine ⟨h _ ?_, fun other hother part hpart => h part ?_⟩
    · rw [hsplit]
      exact List.mem_append_right _ (List.mem_singleton_self _)
    · obtain rfl := Option.some.inj hother
      rw [hsplit]
      exact List.mem_append_left _ hpart

end ClassName
end Scaffold

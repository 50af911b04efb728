/-
# Class names read again

A class name that was read consists of identifiers, and so it does with an ending behind it; its
namespace and its short name make it up (`ClassName.WellFormed.composed`). Read once more it is the
same name unless it starts or ends with white space (`ClassName.WellFormed.parse_text_iff`).

White space outside ASCII may stand in an identifier. The white space around what is written is
dropped before the separators in front are, so none is left at the end of a name, but some may stand
at its start where a separator was before it; and an ending may end with it. These are the only
names that are read as something else (`ClassName.parse_again`, `ClassName.read_as_other`).
-/

import Mathlib.Data.List.DropRight
import Scaffold.Proofs.ClassName

namespace Scaffold

/-! ### White space at both ends -/

namespace Text

/-- The trimming at the end that lists have. -/
theorem dropEndWhile_eq_rdropWhile (p : Char → Bool) (text : Text) :
    dropEndWhile p text = text.rdropWhile p := rfl

/-- A text is trimmed already if neither of its ends is white space. -/
theorem trim_eq_self_iff {text : Text} :
    trim text = text ↔ ¬text.head?.any isBlank = true ∧ ¬text.getLast?.any isBlank = true := by
  have hback : text.rdropWhile isBlank = text ↔ ¬text.getLast?.any isBlank = true := by
    rw [List.rdropWhile_eq_self_iff]
    cases text with
    | nil => exact iff_of_true nofun Bool.false_ne_true
    | cons c text =>
      rw [List.getLast?_eq_some_getLast (List.cons_ne_nil c text), Option.any_some]
      exact ⟨fun h => h (List.cons_ne_nil c text), fun h _ => h⟩
  have hfront : text.dropWhile isBlank = text ↔ ¬text.head?.any isBlank = true := by
    cases text with
    | nil => exact iff_of_true rfl Bool.false_ne_true
    | cons c text => exact List.dropWhile_eq_self_iff.trans (by simp)
  rw [trim, trimBoth, dropEndWhile_eq_rdropWhile]
  refine ⟨fun h => ?_, fun ⟨hhead, hlast⟩ => ?_⟩
  · -- nothing is dropped, at neither end
    have hlength : text.length ≤ (text.dropWhile isBlank).length :=
      (congrArg List.length h).ge.trans (List.rdropWhile_prefix _ _).length_le
    have hdrop : text.dropWhile isBlank = text :=
      (List.dropWhile_suffix _).eq_of_length_le hlength
    rw [hdrop] at h
    exact ⟨hfront.1 hdrop, hback.1 h⟩
  · rw [hfront.2 hhead, hback.2 hlast]

/-- A trimmed text does not end with white space. -/
theorem getLast?_trim (text : Text) : ¬(trim text).getLast?.any isBlank = true := by
  intro h
  obtain ⟨c, hc, hblank⟩ := (Option.any_eq_true _ _).1 h
  obtain ⟨hne, rfl⟩ := List.mem_getLast?_eq_getLast hc
  exact List.rdropWhile_last_not isBlank _ hne hblank

/-! ### The last separator -/

/-- Nothing stands before a separator that is missing. -/
theorem beforeLast?_of_not_mem {sep : Char} {text : Text} (h : sep ∉ text) :
    beforeLast? sep text = none := by
  have hall : ∀ c ∈ text.reverse, (c != sep) = true := fun c hc =>
    bne_iff_ne.2 (ne_of_mem_of_not_mem (List.mem_reverse.1 hc) h)
  rw [beforeLast?, List.dropWhile_eq_nil_iff.2 hall]

/-- What stands before the last separator, where it is known which one is the last. -/
theorem beforeLast?_append_cons {sep : Char} (before : Text) {text : Text} (h : sep ∉ text) :
    beforeLast? sep (before ++ sep :: text) = some before := by
  have hall : ∀ c ∈ text.reverse, (c != sep) = true := fun c hc =>
    bne_iff_ne.2 (ne_of_mem_of_not_mem (List.mem_reverse.1 hc) h)
  have hdrop : (before ++ sep :: text).reverse.dropWhile (· != sep) = sep :: before.reverse := by
    rw [List.reverse_append, List.reverse_cons, List.append_assoc,
      List.dropWhile_append_of_pos hall, List.singleton_append]
    exact List.dropWhile_cons_of_neg (by simp)
  rw [beforeLast?, hdrop]
  exact congrArg some (List.reverse_reverse before)

end Text

/-! ### Names -/

namespace ClassName

/-- A name is read where it is well formed once white space and leading separators are dropped. -/
theorem parse_eq_ok_iff {written : Text} {name : ClassName} :
    parse written = .ok name ↔
      written.trim.dropWhile (· == '\\') = name.text ∧ name.WellFormed := by
  unfold parse WellFormed
  dsimp only
  split
  · rename_i hall
    rw [Except.ok.injEq]
    refine ⟨fun h => h ▸ ⟨rfl, List.all_eq_true.1 hall⟩, fun h => ?_⟩
    rw [h.1]
  · rename_i hall
    refine iff_of_false nofun fun h => hall ?_
    rw [h.1]
    exact List.all_eq_true.2 h.2

/-- A name consists of identifiers, and its namespace and its short name make it up. -/
structure Composed (name : ClassName) : Prop where
  parts : ∃ parts ≠ [], name.text = ['\\'].intercalate parts ∧
    ∀ part ∈ parts, isIdentifier part = true
  short : isIdentifier name.shortName = true
  qualified : name.text = name.space?.elim name.shortName (· ++ '\\' :: name.shortName)

/-- A well-formed name is composed of identifiers. -/
theorem WellFormed.composed {name : ClassName} (h : name.WellFormed) : name.Composed := by
  refine ⟨⟨name.text.splitOn '\\', List.splitOn_ne_nil _ _, ?_, h⟩, h.parts.1, ?_⟩
  · exact (List.intercalate_splitOn _).symm
  · cases hspace : name.space? with
    | none => exact (Text.afterLast_of_beforeLast?_eq_none hspace).symm
    | some space => exact Text.eq_append_of_beforeLast? hspace

/-- No separator is left in front of a name. -/
theorem WellFormed.dropWhile_text {name : ClassName} (h : name.WellFormed) :
    name.text.dropWhile (· == '\\') = name.text := by
  obtain ⟨c, more, htext, hc, -⟩ := h.chars
  rw [htext]
  exact List.dropWhile_cons_of_neg fun he => hc (beq_iff_eq.1 he)

/-- **A name is read again as itself** if neither of its ends is white space. -/
theorem WellFormed.parse_text_iff {name : ClassName} (h : name.WellFormed) :
    parse name.text = .ok name ↔
      ¬name.text.head?.any isBlank = true ∧ ¬name.text.getLast?.any isBlank = true := by
  rw [← Text.trim_eq_self_iff, parse_eq_ok_iff]
  refine ⟨fun ⟨hread, _⟩ => ?_, fun htrim => ⟨htrim.symm ▸ h.dropWhile_text, h⟩⟩
  -- what is read is no longer than what was trimmed
  have htrimmed : name.text.trim <:+: name.text :=
    (List.rdropWhile_prefix _ _).isInfix.trans (List.dropWhile_suffix _).isInfix
  have hlength : name.text.length ≤ name.text.trim.length :=
    (congrArg List.length hread).ge.trans (List.dropWhile_suffix _).length_le
  exact htrimmed.eq_of_length_le hlength

/-- A name that was read does not end with white space. -/
theorem getLast?_of_parse {written : Text} {name : ClassName} (h : parse written = .ok name) :
    ¬name.text.getLast?.any isBlank = true := by
  obtain ⟨hread, hname⟩ := parse_eq_ok_iff.1 h
  obtain ⟨c, more, htext, -⟩ := hname.chars
  obtain ⟨before, hbefore⟩ : name.text <:+ written.trim := hread ▸ List.dropWhile_suffix _
  have hlast : written.trim.getLast? = name.text.getLast? := by
    rw [← hbefore, List.getLast?_append, htext, List.getLast?_eq_some_getLast (List.cons_ne_nil _ _),
      Option.some_or]
  exact hlast ▸ Text.getLast?_trim written

/-- The short name of a class has no separator. -/
theorem not_mem_shortName (name : ClassName) : '\\' ∉ name.shortName :=
  Text.not_mem_afterLast '\\' name.text

/-- An ending stands at the end of the short name, in the same namespace. -/
theorem withSuffix_parts (name : ClassName) {suffix : Text} (h : '\\' ∉ suffix) :
    (name.withSuffix suffix).space? = name.space? ∧
      (name.withSuffix suffix).shortName = name.shortName ++ suffix := by
  have hshort : '\\' ∉ name.shortName ++ suffix := by
    rw [List.mem_append, not_or]
    exact ⟨name.not_mem_shortName, h⟩
  unfold withSuffix space? shortName at *
  dsimp only at *
  cases hspace : Text.beforeLast? '\\' name.text with
  | none =>
    rw [Text.afterLast_of_beforeLast?_eq_none hspace] at hshort ⊢
    exact ⟨Text.beforeLast?_of_not_mem hshort, Text.afterLast_of_not_mem hshort⟩
  | some space =>
    have htext : name.text ++ suffix =
        space ++ '\\' :: (Text.afterLast '\\' name.text ++ suffix) := by
      conv_lhs => rw [Text.eq_append_of_beforeLast? hspace]
      rw [List.append_assoc, List.cons_append]
    rw [htext, Text.beforeLast?_append_cons _ hshort, Text.afterLast_append_cons,
      Text.afterLast_of_not_mem hshort]
    exact ⟨rfl, rfl⟩

/-- **Class names read again.**  A name that was read, and that name with the ending of checked
settings, consist of identifiers, and their namespace and short name make them up. The name is read
again as itself unless it starts with white space, and with the ending unless, besides, the ending
ends with some. -/
theorem parse_again {written : Text} {name : ClassName} (h : parse written = .ok name)
    {settings checked : Settings} (hchecked : settings.check = .ok checked) :
    name.Composed ∧ (name.withSuffix checked.suffix).Composed ∧
      (name.withSuffix checked.suffix).space? = name.space? ∧
      (name.withSuffix checked.suffix).shortName = name.shortName ++ checked.suffix ∧
      (parse name.text = .ok name ↔ ¬name.text.head?.any isBlank = true) ∧
      (parse (name.withSuffix checked.suffix).text = .ok (name.withSuffix checked.suffix) ↔
        ¬name.text.head?.any isBlank = true ∧ ¬checked.suffix.getLast?.any isBlank = true) := by
  have hname := wellFormed_of_parse h
  have hsuffix := Settings.isIdentifier_suffix_of_check hchecked
  have hlonger : (name.withSuffix checked.suffix).WellFormed :=
    hname.withSuffix (isIdentifier_iff.1 hsuffix).2
  obtain ⟨hspace, hshort⟩ := name.withSuffix_parts (not_mem_of_isIdentifier hsuffix rfl)
  refine ⟨hname.composed, hlonger.composed, hspace, hshort, ?_, ?_⟩
  · rw [hname.parse_text_iff]
    exact and_iff_left (getLast?_of_parse h)
  · obtain ⟨c, more, htext, -⟩ := hname.chars
    obtain ⟨d, ending, hending⟩ : ∃ d ending, checked.suffix = d :: ending := by
      refine List.exists_cons_of_ne_nil fun hnil => ?_
      rw [hnil] at hsuffix
      cases hsuffix
    have hhead : (name.text ++ checked.suffix).head? = name.text.head? := by
      rw [htext]
      rfl
    have hlast : (name.text ++ checked.suffix).getLast? = checked.suffix.getLast? := by
      rw [List.getLast?_append, hending, List.getLast?_eq_some_getLast (List.cons_ne_nil _ _),
        Option.some_or]
    rw [hlonger.parse_text_iff, withSuffix, hhead, hlast]

/-- The white space around what is written is no part of the name. Some at the end of an ending is
dropped when the name with that ending is read. -/
theorem parse_again_at_spaces :
    let name : ClassName := ⟨"App\\Ping".toList⟩
    let settings : Settings := { Settings.default with suffix := "Of\u3000".toList }
    parse "\t\\\\App\\Ping\u3000".toList = .ok name ∧ settings.check = .ok settings ∧
      parse name.text = .ok name ∧ (name.withSuffix settings.suffix).Composed ∧
      parse (name.withSuffix settings.suffix).text ≠ .ok (name.withSuffix settings.suffix) := by
  intro name settings
  have hread : parse "\t\\\\App\\Ping\u3000".toList = .ok name :=
    Script.eq_ok_of_toOption (by decide +kernel)
  have hchecked : settings.check = .ok settings := Script.eq_ok_of_toOption (by decide +kernel)
  obtain ⟨-, hcomposed, -, -, hagain, hlonger⟩ := parse_again hread hchecked
  refine ⟨hread, hchecked, hagain.2 (by decide +kernel), hcomposed, fun h => ?_⟩
  exact absurd (hlonger.1 h).2 (by decide +kernel)

/-- White space behind the separator in front of a name is kept, and is dropped when the name is
read again; so is white space at the end of an ending. -/
theorem read_as_other :
    let name : ClassName := ⟨"\u00a0Foo".toList⟩
    let other : ClassName := ⟨"Foo".toList⟩
    let settings : Settings := { Settings.default with suffix := "Of\u00a0".toList }
    parse "\\\u00a0Foo".toList = .ok name ∧ parse name.text = .ok other ∧
      settings.check = .ok settings ∧ parse (other.withSuffix settings.suffix).text =
        .ok ⟨"FooOf".toList⟩ := by
  intro name other settings
  exact ⟨Script.eq_ok_of_toOption (by decide +kernel), Script.eq_ok_of_toOption (by decide +kernel),
    Script.eq_ok_of_toOption (by decide +kernel), Script.eq_ok_of_toOption (by decide +kernel)⟩

end ClassName
end Scaffold

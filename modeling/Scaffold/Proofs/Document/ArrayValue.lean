/-
# The array that a section stands for

When the language evaluates an array literal, it binds the elements from left to right. A key that
is the decimal text of an integer is that integer, and an element without a key gets one more than
the largest integer that has been a key so far. An entry that is inserted comes last, so it is bound
last (`arrayOf?_appended`) and every element at another key stays. Keys are told apart as they are
written, so the new key may be an integer that an item without a key gets, and no other key that is
there (`exists_item_of_lookup`). The whole statement is `setEntry_keeps_elements`.
-/

import Mathlib.Data.List.AList
import Scaffold.Proofs.Document.Entries

namespace Scaffold

namespace Script

/-! ### Keys of arrays -/

/-- The decimal text of an integer. -/
def decimal : Int → Text
  | .ofNat n => Nat.toDigits 10 n
  | .negSucc n => '-' :: Nat.toDigits 10 (n + 1)

/-- The integer that the characters of a text would be the digits of. -/
def digitsValue : Text → Int
  | '-' :: digits => -(Nat.ofDigitChars 10 digits 0 : Int)
  | digits => (Nat.ofDigitChars 10 digits 0 : Int)

/-- The integer that a text is the decimal text of. -/
def integer? (text : Text) : Option Int :=
  if decimal (digitsValue text) = text then some (digitsValue text) else none

/-- The decimal digits of a number have its value. -/
theorem digitsValue_decimal (n : Int) : digitsValue (decimal n) = n := by
  have hdigits : ∀ k : Nat, Nat.ofDigitChars 10 (Nat.toDigits 10 k) 0 = k := fun k =>
    Nat.ofDigitChars_toDigits (by decide) (by decide)
  cases n with
  | ofNat k =>
    rw [decimal]
    unfold digitsValue
    split
    · rename_i digits hminus
      have hdigit : Char.isDigit '-' = true :=
        Nat.isDigit_of_mem_toDigits (b := 10) (n := k) (by decide) (by decide)
          (hminus ▸ List.mem_cons_self)
      cases hdigit
    · rw [hdigits]
      rfl
  | negSucc k =>
    rw [decimal, digitsValue, hdigits]
    rfl

/-- A text stands for an integer just in case it is the decimal spelling of it. -/
theorem integer?_eq_some_iff {text : Text} {n : Int} :
    integer? text = some n ↔ decimal n = text := by
  unfold integer?
  constructor
  · intro h
    split at h
    · rename_i htext
      cases h
      exact htext
    · cases h
  · rintro rfl
    rw [digitsValue_decimal, if_pos rfl]

/-- A key of an array: an integer, or a text that is the decimal text of none. -/
inductive ArrayKey where
  | integer (n : Int)
  | string (text : Text)
deriving DecidableEq, Repr

namespace ArrayKey

/-- The key that a string stands for. -/
def ofText (text : Text) : ArrayKey :=
  match integer? text with
  | some n => .integer n
  | none => .string text

/-- The integer that the key is, if it is one. -/
def integer? : ArrayKey → Option Int
  | .integer n => some n
  | .string _ => none

/-- Different strings are different keys. -/
theorem ofText_inj {text other : Text} (h : ofText text = ofText other) : text = other := by
  unfold ofText at h
  split at h
  · rename_i n hn
    split at h
    · rename_i m hm
      cases h
      exact (integer?_eq_some_iff.1 hn).symm.trans (integer?_eq_some_iff.1 hm)
    · cases h
  · split at h
    · cases h
    · exact ArrayKey.string.inj h

end ArrayKey

example : ArrayKey.ofText "-12".toList = .integer (-12) := by decide +kernel

example : ArrayKey.ofText "012".toList = .string "012".toList := by decide +kernel

/-- Whether the elements of another array are put in the place of the expression. -/
def Expression.isSpread (e : Expression) : Bool :=
  (e.tokens.take 3).map Token.text == List.replicate 3 ['.']

/-- A moved expression is spread if it was. -/
theorem ExpressionTwin.isSpread_eq {source source' : Text} {e e' : Expression}
    (h : ExpressionTwin source source' e e') : e'.isSpread = e.isSpread := by
  obtain ⟨origin, target, rfl, -⟩ := h
  have htext : Token.text ∘ Token.move origin target = Token.text := rfl
  rw [Expression.isSpread, Expression.isSpread, Expression.move_tokens, ← List.map_take,
    List.map_map, htext]

end Script

namespace Config

open Script (ArrayKey ArrayLiteral Expression ExpressionTwin Item ItemTwin Value)

/-- An element of an array: how it is written and what it evaluates to. -/
structure Element where
  written : Text
  value : Value
deriving DecidableEq, Repr

/-- What an array has at each of its keys. -/
abbrev ArrayValue := AList fun _ : ArrayKey => Element

/-- The integer that is the key of the next element without one. -/
def ArrayValue.next (array : ArrayValue) : Int :=
  match (array.keys.filterMap ArrayKey.integer?).max? with
  | none => 0
  | some largest => largest + 1

namespace Document

/-- The key that an item is bound at behind the elements of an array; nothing if the text does not
tell, or the item stands for the elements of another array. -/
def keyOf? (document : Document) (array : ArrayValue) (item : Item) : Option ArrayKey :=
  match item.key with
  | none => if item.value.isSpread then none else some (.integer array.next)
  | some e =>
    match document.evaluate e with
    | .known text => some (.ofText text)
    | .verbatim _ => none

/-- The element that an item stands for. -/
def element (document : Document) (item : Item) : Element :=
  ⟨item.value.written document.source, document.evaluate item.value⟩

/-- The array with one more item bound, in the place of what is bound at its key. -/
def bindItem? (document : Document) (array : ArrayValue) (item : Item) : Option ArrayValue :=
  (document.keyOf? array item).map fun key => array.insert key (document.element item)

/-- The array that some items stand for: they are bound from left to right. -/
def arrayOf? (document : Document) (items : List Item) : Option ArrayValue :=
  items.foldlM document.bindItem? ∅

/-- The key of the item is known, or it has none and stands for one element. -/
def Plain (document : Document) (item : Item) : Prop :=
  (item.key = none ∧ item.value.isSpread = false) ∨
    ∃ e text, item.key = some e ∧ document.evaluate e = .known text

variable {document document' : Document} {items items' : List Item} {array : ArrayValue}

/-- An item has a key or gets one just in case it is plain. -/
theorem isSome_keyOf?_iff (array : ArrayValue) {item : Item} :
    (document.keyOf? array item).isSome ↔ document.Plain item := by
  unfold keyOf? Plain
  split
  · rename_i hkey
    rw [hkey]
    split <;> simp_all
  · rename_i e hkey
    rw [hkey]
    split <;> simp_all

/-- The value of a list of items is built up item by item. -/
theorem arrayOf?_concat (items : List Item) (item : Item) :
    document.arrayOf? (items ++ [item]) =
      (document.arrayOf? items).bind (document.bindItem? · item) := by
  simp only [arrayOf?, List.foldlM_append, List.foldlM_cons, List.foldlM_nil, bind_pure]
  rfl

/-- An array is bound item by item. -/
theorem arrayOf?_concat_eq_some_iff {item : Item} :
    document.arrayOf? (items ++ [item]) = some array ↔
      ∃ earlier key, document.arrayOf? items = some earlier ∧
        document.keyOf? earlier item = some key ∧
        array = earlier.insert key (document.element item) := by
  simp only [arrayOf?_concat, Option.bind_eq_some_iff, bindItem?, Option.map_eq_some_iff]
  constructor
  · rintro ⟨earlier, hearlier, key, hkey, rfl⟩
    exact ⟨earlier, key, hearlier, hkey, rfl⟩
  · rintro ⟨earlier, key, hearlier, hkey, rfl⟩
    exact ⟨earlier, hearlier, key, hkey, rfl⟩

/-- **Plain items stand for an array.** -/
theorem isSome_arrayOf?_iff :
    (document.arrayOf? items).isSome ↔ ∀ item ∈ items, document.Plain item := by
  induction items using List.reverseRecOn with
  | nil => exact iff_of_true rfl fun _ h => absurd h List.not_mem_nil
  | append_singleton items item ih =>
    rw [List.forall_mem_append, List.forall_mem_singleton, ← ih]
    simp only [Option.isSome_iff_exists, arrayOf?_concat_eq_some_iff]
    constructor
    · rintro ⟨_, earlier, key, hearlier, hkey, -⟩
      exact ⟨⟨earlier, hearlier⟩, (isSome_keyOf?_iff earlier).1 (Option.isSome_of_eq_some hkey)⟩
    · rintro ⟨⟨earlier, hearlier⟩, hplain⟩
      obtain ⟨key, hkey⟩ :=
        Option.isSome_iff_exists.1 ((isSome_keyOf?_iff earlier).2 hplain)
      exact ⟨_, earlier, key, hearlier, hkey, rfl⟩

/-- What an array has at a key is what some item stands for. -/
theorem exists_item_of_lookup (h : document.arrayOf? items = some array) {key : ArrayKey}
    {found : Element} (hfound : array.lookup key = some found) :
    ∃ before item after earlier, items = before ++ item :: after ∧
      document.arrayOf? before = some earlier ∧ document.keyOf? earlier item = some key ∧
      document.element item = found := by
  induction items using List.reverseRecOn generalizing array with
  | nil =>
    cases h
    cases hfound
  | append_singleton items item ih =>
    obtain ⟨earlier, last, hearlier, hlast, rfl⟩ := arrayOf?_concat_eq_some_iff.1 h
    by_cases hkey : key = last
    · subst hkey
      rw [AList.lookup_insert] at hfound
      exact ⟨items, item, [], earlier, rfl, hearlier, hlast, Option.some.inj hfound⟩
    · rw [AList.lookup_insert_ne hkey] at hfound
      obtain ⟨before, other, after, array, rfl, hother⟩ := ih hearlier hfound
      exact ⟨before, other, after ++ [item], array, List.append_assoc _ _ _, hother⟩

/-- An element that is there is found in the value. -/
theorem lookup_of_arrayOf? (h : document.arrayOf? items = some array) {key : ArrayKey}
    {found : Element} (hfound : (document.arrayOf? items).bind (·.lookup key) = some found) :
    array.lookup key = some found := by
  rwa [h] at hfound

/-! ### After an edit -/

section
variable (hn : document'.file.names = document.file.names)
include hn

/-- An item and its twin have the same element. -/
theorem element_twin {i i' : Item} (h : ItemTwin document.source document'.source i i') :
    document'.element i' = document.element i := by
  rw [element, element, h.2.written_eq, evaluate_twin hn h.2]

/-- An item and its twin have the same key. -/
theorem keyOf?_twin {i i' : Item} (h : ItemTwin document.source document'.source i i')
    (array : ArrayValue) : document'.keyOf? array i' = document.keyOf? array i := by
  obtain ⟨key, value, comma⟩ := i
  obtain ⟨key', value', comma'⟩ := i'
  obtain ⟨hkey, hvalue⟩ := h
  cases hkey with
  | none =>
    unfold keyOf?
    simp only [hvalue.isSpread_eq]
  | some hkey =>
    unfold keyOf?
    simp only [evaluate_twin hn hkey]

/-- Twins stand for the same array. -/
theorem arrayOf?_twin
    (h : List.Forall₂ (ItemTwin document.source document'.source) items items') :
    document'.arrayOf? items' = document.arrayOf? items := by
  unfold arrayOf?
  generalize (∅ : ArrayValue) = array
  induction h generalizing array with
  | nil => rfl
  | cons hi _ ih =>
    have hitem : ∀ array, document'.bindItem? array _ = document.bindItem? array _ := fun array =>
      by rw [bindItem?, bindItem?, keyOf?_twin hn hi, element_twin hn hi]
    simp only [List.foldlM_cons, hitem, ih]

/-- **An appended item is bound last.** -/
theorem arrayOf?_appended {l l' : ArrayLiteral} {key : Text} {item' : Item}
    (h : Appended document document' key l l' item') (ha : document.arrayOf? l.items = some array) :
    document'.arrayOf? l'.items =
      some (array.insert (.ofText key) (document'.element item')) := by
  obtain ⟨before', hl', hb⟩ := h.items_eq
  obtain ⟨e, he, heval⟩ := hasKey_iff.1 h.hasKey
  rw [hl', arrayOf?_concat_eq_some_iff]
  refine ⟨array, _, (arrayOf?_twin hn hb).trans ha, ?_, rfl⟩
  unfold keyOf?
  rw [he]
  simp only [heval]

end

/-- A key that no item is written with can only be the integer that an item without a key gets. -/
theorem key_eq_none_of_lookup {l : ArrayLiteral} {key : Text}
    (ha : document.arrayOf? l.items = some array)
    (hmissing : document.matching l (.known key) = []) {found : Element}
    (hfound : array.lookup (.ofText key) = some found) :
    ∃ before item after earlier, l.items = before ++ item :: after ∧ item.key = none ∧
      document.arrayOf? before = some earlier ∧
      ArrayKey.ofText key = .integer earlier.next ∧ document.element item = found := by
  obtain ⟨before, item, after, earlier, hitems, hearlier, hkey, helement⟩ :=
    exists_item_of_lookup ha hfound
  have hmem : item ∈ l.items := hitems ▸ List.mem_append_right _ List.mem_cons_self
  have hno := List.filter_eq_nil_iff.1 ((matching_eq l _).symm.trans hmissing) item hmem
  unfold keyOf? at hkey
  split at hkey
  · rename_i hnone
    split at hkey
    · cases hkey
    · exact ⟨before, item, after, earlier, hitems, hnone, hearlier, (Option.some.inj hkey).symm,
        helement⟩
  · rename_i e he
    split at hkey
    · rename_i text htext
      refine absurd (hasKey_iff.2 ⟨e, he, htext.trans ?_⟩) hno
      rw [ArrayKey.ofText_inj (Option.some.inj hkey)]
    · cases hkey

/-- **An inserted entry leaves the other elements.** A section whose items are plain stands for an
array, and so it does after an entry has been inserted. The key has the value then. At every other
key there is what was there before. At the key itself nothing was, unless the key is the integer
that an item without a key has got: the element of that item is lost. -/
theorem setEntry_keeps_elements (hd : document.Reachable) {path : SectionPath} {place : Section}
    (hplace : document.sectionAt path = .ok place)
    (hplain : ∀ item ∈ place.literal.items, document.Plain item) {key value : Literal}
    (hk : key.Representable) (hv : value.Representable)
    (h : document.setEntry path key value = (document', .ok .inserted)) :
    ∃ old place' new, document.arrayOf? place.literal.items = some old ∧
      document'.sectionAt path = .ok place' ∧
      document'.arrayOf? place'.literal.items = some new ∧
      new.lookup (.ofText key.evaluated) =
        some ⟨document.written value, .known value.evaluated⟩ ∧
      (∀ other found, other ≠ .ofText key.evaluated → old.lookup other = some found →
        new.lookup other = some found) ∧
      ∀ found, old.lookup (.ofText key.evaluated) = some found →
        ∃ before item after earlier, place.literal.items = before ++ item :: after ∧
          item.key = none ∧ document.arrayOf? before = some earlier ∧
          ArrayKey.ofText key.evaluated = .integer earlier.next ∧
          document.element item = found := by
  obtain ⟨old, hold⟩ := Option.isSome_iff_exists.1 (isSome_arrayOf?_iff.2 hplain)
  obtain ⟨-, hm⟩ := sectionAt_eq_ok_iff.1 hplace
  obtain ⟨document₁, m, hensured, -, hset⟩ := setEntry_cases hd.isRead hk hv h
  obtain rfl : document₁ = document :=
    hensured.found_or_created.resolve_right fun hnone => hnone.2 _ hm
  obtain rfl := hensured.leads.unique hm
  cases hset with
  | @inserted _ m' e item' edited appended key_eq key_written value_written value_eq =>
    have helement : document'.element item' =
        ⟨document₁.written value, .known value.evaluated⟩ := by
      rw [element, value_written, value_eq]
    refine ⟨old, ⟨path, m'⟩, _, hold, sectionAt_of_leads (edited.leads hm),
      arrayOf?_appended edited.names_eq appended hold, ?_, fun other found hne hfound => ?_,
      fun found => key_eq_none_of_lookup hold appended.missing⟩
    · rw [AList.lookup_insert, helement]
    · rwa [AList.lookup_insert_ne hne]

/-- An entry beside an item without a key, which gets the integer that the new key is. -/
theorem setEntry_keeps_elements_of_list :
    let document := ofText "<?php\nreturn ['a' => 'x', 5 => 'y', 'z'];\n".toList
    ∃ document' old place' new, document.Reachable ∧
      (∀ item ∈ document.file.root.items, document.Plain item) ∧
      document.setEntry .root (.string "6".toList) (.classRef "K".toList) =
        (document', .ok .inserted) ∧
      document.arrayOf? document.file.root.items = some old ∧
      document'.sectionAt .root = .ok place' ∧
      document'.arrayOf? place'.literal.items = some new ∧
      new.lookup (.string "a".toList) = some ⟨"'x'".toList, .known "x".toList⟩ ∧
      new.lookup (.integer 5) = some ⟨"'y'".toList, .known "y".toList⟩ ∧
      old.lookup (.integer 6) = some ⟨"'z'".toList, .known "z".toList⟩ ∧
      new.lookup (.integer 6) = some ⟨"K::class".toList, .known "K".toList⟩ := by
  intro document
  have hd : document.Reachable := ofText_reachable _
  have hplain : ∀ item ∈ document.file.root.items, document.Plain item :=
    isSome_arrayOf?_iff.1 (by decide +kernel)
  have hk : Literal.Representable (.string "6".toList) := trivial
  have hv : Literal.Representable (.classRef "K".toList) :=
    ⟨⟨"K".toList, Script.eq_ok_of_toOption (by decide +kernel)⟩, by decide +kernel⟩
  have hresult : (document.setEntry .root (.string "6".toList) (.classRef "K".toList)).2 =
      .ok .inserted := by decide +kernel
  have hset : document.setEntry .root (.string "6".toList) (.classRef "K".toList) =
      ((document.setEntry .root (.string "6".toList) (.classRef "K".toList)).1, .ok .inserted) :=
    Prod.ext rfl hresult
  have hroot : document.sectionAt .root = .ok ⟨.root, document.file.root⟩ := rfl
  obtain ⟨old, place', new, hold, hplace', hnew, hvalue, hkept, -⟩ :=
    setEntry_keeps_elements hd hroot hplain hk hv hset
  have hx : old.lookup (.string "a".toList) = some ⟨"'x'".toList, .known "x".toList⟩ :=
    lookup_of_arrayOf? hold (by decide +kernel)
  have hy : old.lookup (.integer 5) = some ⟨"'y'".toList, .known "y".toList⟩ :=
    lookup_of_arrayOf? hold (by decide +kernel)
  have hclass : new.lookup (.integer 6) = some ⟨"K::class".toList, .known "K".toList⟩ := by
    have hkey : ArrayKey.ofText "6".toList = .integer 6 := by decide +kernel
    have hwritten : document.written (.classRef "K".toList) = "K::class".toList := by
      decide +kernel
    rw [← hkey, ← hwritten]
    exact hvalue
  exact ⟨_, old, place', new, hd, hplain, hset, hold, hplace', hnew,
    hkept _ _ (by decide +kernel) hx, hkept _ _ (by decide +kernel) hy,
    lookup_of_arrayOf? hold (by decide +kernel), hclass⟩

/-- **An inserted entry may take an element away.** The key `'0'` is the integer that the only item
has got, as which the item is not written. -/
theorem setEntry_loses_element :
    ¬∀ {document document' : Document} {path : SectionPath} {place place' : Section}
      {key value : Literal} {old new : ArrayValue}, document.Reachable →
      document.sectionAt path = .ok place →
      (∀ item ∈ place.literal.items, document.Plain item) → key.Representable →
      value.Representable → document.setEntry path key value = (document', .ok .inserted) →
      document.arrayOf? place.literal.items = some old → document'.sectionAt path = .ok place' →
      document'.arrayOf? place'.literal.items = some new →
      ∀ other found, old.lookup other = some found → new.lookup other = some found := by
  intro hkeeps
  let document := ofText "<?php\nreturn ['x'];\n".toList
  let document' := (document.setEntry .root (.string ['0']) (.string ['v'])).1
  have hresult : (document.setEntry .root (.string ['0']) (.string ['v'])).2 = .ok .inserted := by
    decide +kernel
  have hset : document.setEntry .root (.string ['0']) (.string ['v']) =
      (document', .ok .inserted) := Prod.ext rfl hresult
  have hroot : document.sectionAt .root = .ok ⟨.root, document.file.root⟩ := rfl
  have hroot' : document'.sectionAt .root = .ok ⟨.root, document'.file.root⟩ := rfl
  have hk : Literal.Representable (.string ['0']) := trivial
  have hv : Literal.Representable (.string ['v']) := trivial
  have hsome : (document.arrayOf? document.file.root.items).isSome := by decide +kernel
  obtain ⟨old, hold⟩ := Option.isSome_iff_exists.1 hsome
  obtain ⟨new, hnew⟩ := Option.isSome_iff_exists.1
    (show (document'.arrayOf? document'.file.root.items).isSome by decide +kernel)
  have hfound : old.lookup (.integer 0) = some ⟨"'x'".toList, .known ['x']⟩ :=
    lookup_of_arrayOf? hold (by decide +kernel)
  have hlost := hkeeps (ofText_reachable _) hroot (isSome_arrayOf?_iff.1 hsome) hk hv hset hold
    hroot' hnew _ _ hfound
  have hvalue : new.lookup (.integer 0) = some ⟨"'v'".toList, .known ['v']⟩ :=
    lookup_of_arrayOf? hnew (by decide +kernel)
  rw [hvalue] at hlost
  exact absurd hlost (by decide +kernel)

end Document
end Config
end Scaffold

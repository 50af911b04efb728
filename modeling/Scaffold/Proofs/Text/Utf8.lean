/-
# Texts as bytes

A text is written as bytes in UTF-8. The first byte of a character says how many bytes it has, and
the others are continuation bytes (`utf8_syntax`), so no character is the start of another one.

| first byte | bytes of the character |
| --- | ---: |
| below `0x80` | 1 |
| from `0xc0` on | 2 |
| from `0xe0` on | 3 |
| from `0xf0` on | 4 |

A place in the bytes is a boundary where no continuation byte stands. Main statements: the
boundaries are the ends of the parts of the text (`isBoundary_iff`), and a text is cut in two at
its boundaries and nowhere else (`cutAt?_eq_some_iff`).
-/

import Mathlib.Tactic.SplitIfs
import Scaffold.Text.Basic

namespace Scaffold
namespace Script

/-! ### Characters -/

/-- The bytes of a code point in UTF-8. -/
def utf8 (n : Nat) : List UInt8 :=
  if n ≤ 0x7f then [UInt8.ofNat n]
  else if n ≤ 0x7ff then [UInt8.ofNat (n / 64 % 0x20 + 0xc0), UInt8.ofNat (n % 0x40 + 0x80)]
  else if n ≤ 0xffff then
    [UInt8.ofNat (n / 4096 % 0x10 + 0xe0), UInt8.ofNat (n / 64 % 0x40 + 0x80),
      UInt8.ofNat (n % 0x40 + 0x80)]
  else
    [UInt8.ofNat (n / 262144 % 0x08 + 0xf0), UInt8.ofNat (n / 4096 % 0x40 + 0x80),
      UInt8.ofNat (n / 64 % 0x40 + 0x80), UInt8.ofNat (n % 0x40 + 0x80)]

/-- The bytes are those that Lean encodes a character with. -/
theorem utf8_toNat (c : Char) : utf8 c.toNat = String.utf8EncodeChar c := rfl

/-- A character has four bytes at most. -/
theorem length_utf8_le (n : Nat) : (utf8 n).length ≤ 4 := by
  unfold utf8
  split_ifs <;> simp

/-- A byte behind the first of a character. -/
def isContinuation (b : UInt8) : Bool := 0x80 ≤ b.toNat && b.toNat < 0xc0

/-- How many bytes the character that starts with `b` has. -/
def charWidth (b : UInt8) : Nat :=
  if b.toNat < 0x80 then 1 else if b.toNat < 0xe0 then 2 else if b.toNat < 0xf0 then 3 else 4

/-- Six bits with the mark of a continuation byte are one. -/
theorem isContinuation_ofNat (n : Nat) : isContinuation (UInt8.ofNat (n % 0x40 + 0x80)) = true := by
  have hvalue : (UInt8.ofNat (n % 0x40 + 0x80)).toNat = n % 0x40 + 0x80 :=
    UInt8.toNat_ofNat_of_lt' (show _ < 256 by omega)
  simp only [isContinuation, hvalue, Bool.and_eq_true, decide_eq_true_eq]
  omega

/-- What the first byte of a character is, from its number. -/
theorem first_byte {k w : Nat} (hk : k < 0x80 ∧ w = 1 ∨ 0xc0 ≤ k ∧ k < 0xe0 ∧ w = 2 ∨
    0xe0 ≤ k ∧ k < 0xf0 ∧ w = 3 ∨ 0xf0 ≤ k ∧ k < 0x100 ∧ w = 4) :
    w = charWidth (UInt8.ofNat k) ∧ isContinuation (UInt8.ofNat k) = false := by
  have hvalue : (UInt8.ofNat k).toNat = k := UInt8.toNat_ofNat_of_lt' (show _ < 256 by omega)
  rw [charWidth, isContinuation, hvalue]
  constructor
  · split_ifs <;> omega
  · rw [Bool.and_eq_false_iff, decide_eq_false_iff_not, decide_eq_false_iff_not]
    omega

/-- **The first byte of a character says how many it has.**  All others are continuation bytes. -/
theorem utf8_syntax (n : Nat) :
    ∃ b tail, utf8 n = b :: tail ∧ tail.length + 1 = charWidth b ∧ isContinuation b = false ∧
      ∀ t ∈ tail, isContinuation t = true := by
  unfold utf8
  split_ifs with h1 h2 h3
  · obtain ⟨hwidth, hfirst⟩ := first_byte (k := n) (w := 1) (by omega)
    exact ⟨_, [], rfl, hwidth, hfirst, nofun⟩
  · obtain ⟨hwidth, hfirst⟩ := first_byte (k := n / 64 % 0x20 + 0xc0) (w := 2) (by omega)
    refine ⟨_, [_], rfl, hwidth, hfirst, List.forall_mem_singleton.2 ?_⟩
    exact isContinuation_ofNat n
  · obtain ⟨hwidth, hfirst⟩ := first_byte (k := n / 4096 % 0x10 + 0xe0) (w := 3) (by omega)
    refine ⟨_, [_, _], rfl, hwidth, hfirst, List.forall_mem_cons.2 ⟨?_, ?_⟩⟩
    · exact isContinuation_ofNat (n / 64)
    · exact List.forall_mem_singleton.2 (isContinuation_ofNat n)
  · obtain ⟨hwidth, hfirst⟩ := first_byte (k := n / 262144 % 0x08 + 0xf0) (w := 4) (by omega)
    refine ⟨_, [_, _, _], rfl, hwidth, hfirst, List.forall_mem_cons.2 ⟨?_, ?_⟩⟩
    · exact isContinuation_ofNat (n / 4096)
    · refine List.forall_mem_cons.2 ⟨isContinuation_ofNat (n / 64), ?_⟩
      exact List.forall_mem_singleton.2 (isContinuation_ofNat n)

/-- A number above ASCII that fits into a byte. -/
theorem le_toNat_ofNat {k : Nat} (h : 0x80 ≤ k ∧ k < 0x100) : 0x80 ≤ (UInt8.ofNat k).toNat := by
  have hvalue : (UInt8.ofNat k).toNat = k := UInt8.toNat_ofNat_of_lt' h.2
  rw [hvalue]
  exact h.1

/-- All bytes of a character outside ASCII are outside ASCII. -/
theorem le_of_mem_utf8 {n : Nat} (h : 0x80 ≤ n) : ∀ b ∈ utf8 n, 0x80 ≤ b.toNat := by
  have hn : ¬n ≤ 0x7f := by omega
  rw [utf8, if_neg hn]
  split_ifs <;> simp only [List.forall_mem_cons]
  · exact ⟨le_toNat_ofNat (by omega), le_toNat_ofNat (by omega), nofun⟩
  · exact ⟨le_toNat_ofNat (by omega), le_toNat_ofNat (by omega), le_toNat_ofNat (by omega), nofun⟩
  · exact ⟨le_toNat_ofNat (by omega), le_toNat_ofNat (by omega), le_toNat_ofNat (by omega),
      le_toNat_ofNat (by omega), nofun⟩

/-- Every character has a byte. -/
theorem utf8_ne_nil (n : Nat) : utf8 n ≠ [] := by
  obtain ⟨b, tail, h, -⟩ := utf8_syntax n
  rw [h]
  exact List.cons_ne_nil b tail

/-- Where two runs of bytes start with a character and are the same, so are the characters. -/
theorem utf8_append_inj {m n : Nat} {x y : List UInt8} (h : utf8 m ++ x = utf8 n ++ y) :
    utf8 m = utf8 n ∧ x = y := by
  obtain ⟨b, tail, hm, hb, -⟩ := utf8_syntax m
  obtain ⟨d, later, hn, hd, -⟩ := utf8_syntax n
  refine List.append_inj h ?_
  rw [hm, hn, List.cons_append, List.cons_append] at h
  rw [hm, hn, List.length_cons, List.length_cons, hb, hd, (List.cons.inj h).1]

/-! ### Texts -/

/-- The bytes of a text in UTF-8. -/
def utf8Text (text : Text) : List UInt8 := text.flatMap fun c => utf8 c.toNat

/-- The bytes of a text are those of its first character and those of the rest. -/
theorem utf8Text_cons (c : Char) (rest : Text) :
    utf8Text (c :: rest) = utf8 c.toNat ++ utf8Text rest := List.flatMap_cons

/-- Two texts put together have their bytes put together. -/
theorem utf8Text_append (a b : Text) : utf8Text (a ++ b) = utf8Text a ++ utf8Text b :=
  List.flatMap_append

/-- A text has a byte for every character at least. -/
theorem length_le_utf8Text (text : Text) : text.length ≤ (utf8Text text).length := by
  induction text with
  | nil => exact Nat.le_refl 0
  | cons c rest ih =>
    have hc := List.length_pos_iff.2 (utf8_ne_nil c.toNat)
    rw [utf8Text_cons, List.length_append, List.length_cons]
    omega

/-- Texts with the same bytes are the same. -/
theorem utf8Text_injective : Function.Injective utf8Text := by
  intro a b h
  have hencode : ∀ text : Text, text.flatMap String.utf8EncodeChar = utf8Text text := fun text =>
    congrArg text.flatMap (funext fun c => (utf8_toNat c).symm)
  have hbytes : (String.ofList a).toByteArray = (String.ofList b).toByteArray := by
    rw [String.toByteArray_ofList, String.toByteArray_ofList]
    exact congrArg List.toByteArray ((hencode a).trans (h.trans (hencode b).symm))
  exact String.ofList_injective (String.toByteArray_inj.1 hbytes)

/-- A text starts with another one just in case its bytes do. -/
theorem utf8Text_prefix_iff {a b : Text} : utf8Text a <+: utf8Text b ↔ a <+: b := by
  constructor
  · intro h
    induction a generalizing b with
    | nil => exact List.nil_prefix
    | cons c a ih =>
      obtain ⟨x, hx⟩ := h
      cases b with
      | nil =>
        rw [utf8Text_cons, List.append_assoc] at hx
        exact absurd (List.append_eq_nil_iff.1 hx).1 (utf8_ne_nil c.toNat)
      | cons d b =>
        rw [utf8Text_cons, utf8Text_cons, List.append_assoc] at hx
        obtain ⟨hc, hrest⟩ := utf8_append_inj hx
        obtain rfl : c = d := by
          have hone : utf8Text [c] = utf8Text [d] := by
            rw [utf8Text_cons, utf8Text_cons, hc]
          exact (List.cons.inj (utf8Text_injective hone)).1
        exact List.cons_prefix_cons.2 ⟨rfl, ih ⟨x, hrest⟩⟩
  · rintro ⟨x, rfl⟩
    rw [utf8Text_append]
    exact List.prefix_append _ _

/-! ### Boundaries -/

/-- Whether `n` bytes are some characters as a whole: a character starts behind them, or nothing
does. -/
def IsBoundary (bytes : List UInt8) (n : Nat) : Prop :=
  n ≤ bytes.length ∧ ∀ b ∈ (bytes.drop n).head?, isContinuation b = false

/-- The first of two texts ends at a boundary. -/
theorem isBoundary_append (a z : Text) :
    IsBoundary (utf8Text (a ++ z)) (utf8Text a).length := by
  rw [utf8Text_append]
  refine ⟨(List.prefix_append _ _).length_le, ?_⟩
  rw [List.drop_left]
  cases z with
  | nil => nofun
  | cons c z =>
    obtain ⟨b, tail, hc, -, hb, -⟩ := utf8_syntax c.toNat
    rw [utf8Text_cons, hc]
    intro t ht
    obtain rfl := Option.some.inj ht
    exact hb

/-- Within a character is no boundary: a continuation byte stands there. -/
theorem not_isBoundary_within {c : Char} {n : Nat} (h : n + 1 < (utf8 c.toNat).length)
    (rest : Text) : ¬IsBoundary (utf8Text (c :: rest)) (n + 1) := by
  rintro ⟨-, hhead⟩
  obtain ⟨b, tail, hc, -, -, htail⟩ := utf8_syntax c.toNat
  rw [hc, List.length_cons] at h
  obtain ⟨t, more, ht⟩ : ∃ t more, tail.drop n = t :: more := by
    refine List.exists_cons_of_length_pos ?_
    rw [List.length_drop]
    omega
  rw [utf8Text_cons, hc, List.cons_append, List.drop_succ_cons, List.drop_append, ht] at hhead
  have hmem : t ∈ tail := List.mem_of_mem_drop (ht ▸ List.mem_cons_self)
  have hfirst := hhead t rfl
  rw [htail t hmem] at hfirst
  cases hfirst

/-- A boundary behind the first character is one of the rest. -/
theorem IsBoundary.of_cons {c : Char} {rest : Text} {n : Nat} (h : (utf8 c.toNat).length ≤ n)
    (hb : IsBoundary (utf8Text (c :: rest)) n) :
    IsBoundary (utf8Text rest) (n - (utf8 c.toNat).length) := by
  obtain ⟨hle, hhead⟩ := hb
  rw [utf8Text_cons, List.length_append] at hle
  rw [utf8Text_cons, List.drop_append, List.drop_eq_nil_of_le h, List.nil_append] at hhead
  exact ⟨by omega, hhead⟩

/-- **The boundaries in the bytes of a text are the ends of its parts.** -/
theorem isBoundary_iff {text : Text} {n : Nat} :
    IsBoundary (utf8Text text) n ↔ ∃ a b, a ++ b = text ∧ (utf8Text a).length = n := by
  constructor
  · intro h
    induction text generalizing n with
    | nil => exact ⟨[], [], rfl, (Nat.le_zero.1 h.1).symm⟩
    | cons c rest ih =>
      by_cases hn : (utf8 c.toNat).length ≤ n
      · obtain ⟨a, z, rfl, ha⟩ := ih (h.of_cons hn)
        refine ⟨c :: a, z, rfl, ?_⟩
        rw [utf8Text_cons, List.length_append, ha]
        omega
      · cases n with
        | zero => exact ⟨[], c :: rest, rfl, rfl⟩
        | succ n => exact absurd h (not_isBoundary_within (by omega) rest)
  · rintro ⟨a, z, rfl, rfl⟩
    exact isBoundary_append a z

/-- The number of bytes before the character at position `n` of a text. -/
def byteOffset (text : Text) (n : Nat) : Nat := (utf8Text (text.take n)).length

/-- Every position in a text is a boundary in its bytes. -/
theorem isBoundary_byteOffset (text : Text) (n : Nat) :
    IsBoundary (utf8Text text) (byteOffset text n) :=
  isBoundary_iff.2 ⟨_, _, List.take_append_drop n text, rfl⟩

/-! ### Cuts -/

/-- A text cut in two behind `n` bytes, unless that is inside a character or behind the end. -/
def cutAt? : Text → Nat → Option (Text × Text)
  | text, 0 => some ([], text)
  | [], _ + 1 => none
  | c :: rest, n + 1 =>
    if (utf8 c.toNat).length ≤ n + 1 then
      (cutAt? rest (n + 1 - (utf8 c.toNat).length)).map fun cut => (c :: cut.1, cut.2)
    else none

/-- Before the first byte nothing is cut off. -/
theorem cutAt?_zero (text : Text) : cutAt? text 0 = some ([], text) := by
  cases text <;> rfl

/-- **A text is cut at its boundaries.** -/
theorem cutAt?_eq_some_iff {text a b : Text} {n : Nat} :
    cutAt? text n = some (a, b) ↔ a ++ b = text ∧ (utf8Text a).length = n := by
  induction text, n using cutAt?.induct generalizing a with
  | case1 text =>
    rw [cutAt?_zero, Option.some.injEq, Prod.mk.injEq]
    constructor
    · rintro ⟨rfl, rfl⟩
      exact ⟨rfl, rfl⟩
    · rintro ⟨rfl, ha⟩
      have hle := length_le_utf8Text a
      obtain rfl : a = [] := List.length_eq_zero_iff.1 (by omega)
      exact ⟨rfl, rfl⟩
  | case2 n =>
    constructor
    · nofun
    · rintro ⟨hab, ha⟩
      obtain rfl := (List.append_eq_nil_iff.1 hab).1
      cases ha
  | case3 c rest n hle ih =>
    rw [cutAt?, if_pos hle, Option.map_eq_some_iff]
    constructor
    · rintro ⟨⟨x, y⟩, hcut, he⟩
      cases he
      obtain ⟨hsplit, hx⟩ := ih.1 hcut
      refine ⟨congrArg (c :: ·) hsplit, ?_⟩
      rw [utf8Text_cons, List.length_append, hx]
      omega
    · rintro ⟨hab, ha⟩
      cases a with
      | nil => cases ha
      | cons d x =>
        obtain ⟨rfl, hx⟩ := List.cons.inj hab
        rw [utf8Text_cons, List.length_append] at ha
        exact ⟨(x, b), ih.2 ⟨hx, by omega⟩, rfl⟩
  | case4 c rest n hlt =>
    rw [cutAt?, if_neg hlt]
    constructor
    · nofun
    · rintro ⟨hab, ha⟩
      cases a with
      | nil => cases ha
      | cons d x =>
        obtain ⟨rfl, -⟩ := List.cons.inj hab
        rw [utf8Text_cons, List.length_append] at ha
        omega

/-- What a text is cut into is the start and the rest, where the start ends at a boundary. -/
theorem cutAt?_byteOffset (text : Text) (n : Nat) :
    cutAt? text (byteOffset text n) = some (text.take n, text.drop n) :=
  cutAt?_eq_some_iff.2 ⟨List.take_append_drop n text, rfl⟩

end Script
end Scaffold

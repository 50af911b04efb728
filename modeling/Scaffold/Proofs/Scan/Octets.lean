/-
# The octets of a text

A program that steps through the bytes of a text sees its octets: the bytes, each as the character
of that number. An ASCII character is its own octet, and the octets of any other character are wide,
that is outside ASCII. A predicate is uniform if it treats all wide characters alike; the scanner
asks no others. The first octet satisfies a uniform predicate just in case the first character does
(`map_head?_octets`), and a run of octets is the octets of a run of characters
(`takeWhile_octets`).
-/

import Mathlib.Data.List.Infix
import Scaffold.Proofs.Text.Utf8
import Scaffold.Script.Scan

namespace Scaffold
namespace Script

/-! ### Octets -/

/-- The bytes of a text, each as the character of that number. -/
def octets (text : Text) : Text := (utf8Text text).map Char.ofUInt8

/-- Whether a character is outside ASCII. -/
def isWide (c : Char) : Bool := 0x80 ≤ c.toNat

/-- A byte keeps its number as a character. -/
theorem toNat_ofUInt8 (b : UInt8) : (Char.ofUInt8 b).toNat = b.toNat := rfl

/-- Bytes are told apart as characters. -/
theorem ofUInt8_injective : Function.Injective Char.ofUInt8 := by
  intro a b h
  refine UInt8.toNat_inj.1 ?_
  rw [← toNat_ofUInt8, h, toNat_ofUInt8]

/-- A text has an octet for every byte. -/
theorem length_octets (text : Text) : (octets text).length = (utf8Text text).length :=
  List.length_map ..

/-- The number of octets before a position is its offset in bytes. -/
theorem length_octets_take (text : Text) (n : Nat) :
    (octets (text.take n)).length = byteOffset text n := length_octets _

/-- No characters, no octets. -/
theorem octets_nil : octets [] = [] := rfl

/-- Two texts put together have their octets put together. -/
theorem octets_append (a b : Text) : octets (a ++ b) = octets a ++ octets b := by
  rw [octets, utf8Text_append, List.map_append]
  rfl

/-- The octets of a text are those of its first character and those of the rest. -/
theorem octets_cons (c : Char) (rest : Text) : octets (c :: rest) = octets [c] ++ octets rest :=
  octets_append [c] rest

/-- An ASCII character is its own octet. -/
theorem octets_singleton {c : Char} (h : isWide c = false) : octets [c] = [c] := by
  have hc : c.toNat ≤ 0x7f := by
    rw [isWide, decide_eq_false_iff_not] at h
    omega
  have hbytes : utf8Text [c] = [UInt8.ofNat c.toNat] := by
    rw [utf8Text_cons, utf8, if_pos hc]
    rfl
  rw [octets, hbytes, List.map_singleton]
  refine congrArg (· :: []) (Char.toNat_inj.1 ?_)
  rw [toNat_ofUInt8]
  exact UInt8.toNat_ofNat_of_lt' (show _ < 256 by omega)

/-- An ASCII character at the head of a text is the first octet. -/
theorem octets_cons_ascii {c : Char} (h : isWide c = false) (rest : Text) :
    octets (c :: rest) = c :: octets rest := by
  rw [octets_cons, octets_singleton h]
  rfl

/-- The octets of a wide character are wide. -/
theorem isWide_octets {c : Char} (h : isWide c = true) : ∀ d ∈ octets [c], isWide d = true := by
  intro d hd
  obtain ⟨b, hb, rfl⟩ := List.mem_map.1 hd
  rw [utf8Text_cons] at hb
  have hbyte : b ∈ utf8 c.toNat := (List.mem_append.1 hb).resolve_right nofun
  rw [isWide, decide_eq_true_eq] at h ⊢
  exact le_of_mem_utf8 h b hbyte

/-- Every character has an octet. -/
theorem octets_singleton_ne_nil (c : Char) : octets [c] ≠ [] := by
  intro h
  have hle := length_le_utf8Text [c]
  rw [← length_octets, h] at hle
  cases hle

/-- Behind the first octet of a character all are wide. -/
theorem exists_octets_singleton (c : Char) :
    ∃ d more, octets [c] = d :: more ∧ isWide d = isWide c ∧ ∀ x ∈ more, isWide x = true := by
  cases hc : isWide c with
  | false => exact ⟨c, [], octets_singleton hc, hc, nofun⟩
  | true =>
    obtain ⟨d, more, hd⟩ := List.exists_cons_of_ne_nil (octets_singleton_ne_nil c)
    have hwide := isWide_octets hc
    rw [hd, List.forall_mem_cons] at hwide
    exact ⟨d, more, hd, hwide.1, hwide.2⟩

/-- A text starts with another one just in case its octets do. -/
theorem octets_prefix_iff {a b : Text} : octets a <+: octets b ↔ a <+: b :=
  (List.prefix_map_iff_of_injective ofUInt8_injective).trans utf8Text_prefix_iff

/-- An ASCII text is its own octets. -/
theorem octets_of_ascii {a : Text} (h : a.any isWide = false) : octets a = a := by
  induction a with
  | nil => rfl
  | cons c a ih =>
    rw [List.any_cons, Bool.or_eq_false_iff] at h
    rw [octets_cons_ascii h.1, ih h.2]

/-! ### Positions -/

/-- Nothing stands before the head of a text. -/
theorem byteOffset_zero (text : Text) : byteOffset text 0 = 0 := rfl

/-- A position behind the first character. -/
theorem byteOffset_cons (c : Char) (rest : Text) (n : Nat) :
    byteOffset (c :: rest) (n + 1) = (octets [c]).length + byteOffset rest n := by
  rw [← length_octets_take, List.take_succ_cons, octets_cons, List.length_append,
    length_octets_take]

/-- A position behind an ASCII character. -/
theorem byteOffset_cons_ascii {c : Char} (h : isWide c = false) (rest : Text) (n : Nat) :
    byteOffset (c :: rest) (n + 1) = byteOffset rest n + 1 := by
  rw [byteOffset_cons, octets_singleton h, List.length_singleton, Nat.add_comm]

/-- A position within the second of two texts. -/
theorem byteOffset_append (a b : Text) (n : Nat) :
    byteOffset (a ++ b) (a.length + n) = (octets a).length + byteOffset b n := by
  rw [← length_octets_take, List.take_length_add_append, octets_append, List.length_append,
    length_octets_take]

/-- The position between two texts. -/
theorem byteOffset_length (a b : Text) : byteOffset (a ++ b) a.length = (octets a).length := by
  rw [← length_octets_take, List.take_left]

/-- A position at the end of a text or behind it. -/
theorem byteOffset_of_length_le {text : Text} {n : Nat} (h : text.length ≤ n) :
    byteOffset text n = (octets text).length := by
  rw [← length_octets_take, List.take_of_length_le h]

/-- A position behind another one. -/
theorem byteOffset_add (text : Text) (m n : Nat) :
    byteOffset text (m + n) = byteOffset text m + byteOffset (text.drop m) n := by
  rw [← length_octets_take, List.take_add, octets_append, List.length_append, length_octets_take,
    length_octets_take]

/-- The bytes before a position stand before every later one. -/
theorem byteOffset_le (text : Text) {m n : Nat} (h : m ≤ n) :
    byteOffset text m ≤ byteOffset text n := by
  obtain ⟨k, rfl⟩ := Nat.exists_eq_add_of_le h
  rw [byteOffset_add]
  exact Nat.le_add_right _ _

/-- What stands before a position in the octets. -/
theorem take_octets (text : Text) (n : Nat) :
    (octets text).take (byteOffset text n) = octets (text.take n) := by
  conv_lhs => rw [← List.take_append_drop n text, octets_append, List.take_append_drop]
  rw [← length_octets_take, List.take_left]

/-- What stands behind a position in the octets. -/
theorem drop_octets (text : Text) (n : Nat) :
    (octets text).drop (byteOffset text n) = octets (text.drop n) := by
  conv_lhs => rw [← List.take_append_drop n text, octets_append, List.take_append_drop]
  rw [← length_octets_take, List.drop_left]

/-- The octets start with an ASCII text just in case the text does. -/
theorem take_octets_iff {a : Text} (ha : a.any isWide = false) (text : Text) :
    (octets text).take a.length = a ↔ text.take a.length = a := by
  have htake : ∀ z : Text, z.take a.length = a ↔ a <+: z := fun z =>
    eq_comm.trans List.prefix_iff_eq_take.symm
  have hprefix := octets_prefix_iff (a := a) (b := text)
  rw [octets_of_ascii ha] at hprefix
  rw [htake, htake, hprefix]

/-! ### Characters that are looked for -/

/-- The predicate treats all wide characters alike. -/
def Uniform (p : Char → Bool) (value : Bool) : Prop := ∀ c, isWide c = true → p c = value

/-- Word characters. -/
theorem uniform_isWordChar : Uniform isWordChar true := by
  intro c hc
  unfold isWide at hc
  rw [isWordChar, hc, Bool.or_true]

/-- Characters that a name may start with. -/
theorem uniform_isNameStart : Uniform isNameStart true := by
  intro c hc
  unfold isWide at hc
  rw [isNameStart, hc, Bool.or_true]

/-- The characters before a line break. -/
theorem uniform_ne {a : Char} (ha : isWide a = false) : Uniform (· != a) true := by
  intro c hc
  rw [bne_iff_ne]
  rintro rfl
  rw [ha] at hc
  cases hc

/-- An ASCII character. -/
theorem uniform_eq {a : Char} (ha : isWide a = false) : Uniform (· == a) false := by
  intro c hc
  rw [beq_eq_false_iff_ne]
  exact bne_iff_ne.1 (uniform_ne ha c hc)

/-- Either of two predicates. -/
theorem Uniform.or {p q : Char → Bool} {v w : Bool} (hp : Uniform p v) (hq : Uniform q w) :
    Uniform (fun c => p c || q c) (v || w) := by
  intro c hc
  show (p c || q c) = (v || w)
  rw [hp c hc, hq c hc]

/-- Indentation. -/
theorem uniform_isIndent : Uniform Text.isIndent false := (uniform_eq rfl).or (uniform_eq rfl)

/-- White space behind an opening tag. -/
theorem uniform_isAsciiBlank : Uniform isAsciiBlank false :=
  ((((uniform_eq rfl).or (uniform_eq rfl)).or (uniform_eq rfl)).or (uniform_eq rfl)).or
    (uniform_eq rfl)

variable {p : Char → Bool} {value : Bool}

/-- The first octet answers as the first character. -/
theorem map_head?_octets (hp : Uniform p value) (text : Text) :
    (octets text).head?.map p = text.head?.map p := by
  cases text with
  | nil => rfl
  | cons c rest =>
    cases hc : isWide c with
    | false => rw [octets_cons_ascii hc]; rfl
    | true =>
      obtain ⟨d, more, hd, hwide, -⟩ := exists_octets_singleton c
      rw [octets_cons, hd, List.cons_append, List.head?_cons, List.head?_cons, Option.map_some,
        Option.map_some, hp c hc, hp d (hwide.trans hc)]

/-- The first octet satisfies what the first character does. -/
theorem any_head?_octets (hp : Uniform p value) (text : Text) :
    (octets text).head?.any p = text.head?.any p := by
  have h := congrArg (Option.any id) (map_head?_octets hp text)
  rwa [Option.any_map, Option.any_map] at h

/-- Where there is a first octet, it satisfies what the first character does. -/
theorem all_head?_octets (hp : Uniform p value) (text : Text) :
    (octets text).head?.all p = text.head?.all p := by
  have h := congrArg (Option.all id) (map_head?_octets hp text)
  rwa [Option.all_map, Option.all_map] at h

/-- The first octet is an ASCII character just in case the first character is. -/
theorem head?_octets_iff {a : Char} (ha : isWide a = false) (text : Text) :
    (octets text).head? = some a ↔ text.head? = some a := by
  have h := any_head?_octets (uniform_eq ha) text
  rw [Bool.eq_iff_iff, Option.any_eq_true, Option.any_eq_true] at h
  simpa only [beq_iff_eq, exists_eq_right] using h

/-- A run of octets is the octets of a run of characters. -/
theorem takeWhile_octets (hp : Uniform p value) (text : Text) :
    (octets text).takeWhile p = octets (text.takeWhile p) := by
  induction text with
  | nil => rfl
  | cons c rest ih =>
    cases hc : isWide c with
    | false =>
      rw [octets_cons_ascii hc, List.takeWhile_cons, List.takeWhile_cons]
      split
      · rw [octets_cons_ascii hc, ih]
      · rfl
    | true =>
      have hwide := isWide_octets hc
      rw [octets_cons, List.takeWhile_cons, hp c hc]
      cases value with
      | true =>
        rw [if_pos rfl, octets_cons c (rest.takeWhile p), ← ih, List.takeWhile_append_of_pos]
        exact fun d hd => hp d (hwide d hd)
      | false =>
        obtain ⟨d, more, hd, hfirst, -⟩ := exists_octets_singleton c
        have hne : ¬p d = true := by
          rw [hp d (hfirst.trans hc)]
          exact Bool.false_ne_true
        rw [if_neg Bool.false_ne_true, hd, List.cons_append, List.takeWhile_cons_of_neg hne]
        rfl

/-- What follows a run of octets. -/
theorem dropWhile_octets (hp : Uniform p value) (text : Text) :
    (octets text).dropWhile p = octets (text.dropWhile p) := by
  have hsplit := List.takeWhile_append_dropWhile (p := p) (l := octets text)
  conv at hsplit =>
    rhs
    rw [← List.takeWhile_append_dropWhile (p := p) (l := text), octets_append]
  rw [takeWhile_octets hp] at hsplit
  exact List.append_cancel_left hsplit

/-- The position behind a run of characters. -/
theorem byteOffset_takeWhile (p : Char → Bool) (text : Text) :
    byteOffset text (text.takeWhile p).length = (octets (text.takeWhile p)).length := by
  have h := byteOffset_length (text.takeWhile p) (text.dropWhile p)
  rwa [List.takeWhile_append_dropWhile] at h

end Script
end Scaffold

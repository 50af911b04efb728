/-
# What a quoted string stands for

A string between quotes stands for bytes. Its characters are read in parts, from the left:

| part | between | stands for |
| --- | --- | --- |
| `\\`, `\'` | single quotes | the second character |
| `\\`, `\$`, `\"` | double quotes | the second character |
| `\n`, `\t`, `\r`, `\v`, `\e`, `\f` | double quotes | a control character |
| `\` and one to three octal digits | double quotes | a byte, modulo 256 |
| `\x` and one or two hexadecimal digits | double quotes | a byte |
| `\u`, and hexadecimal digits in braces | double quotes | the bytes of a code point |
| any other character, a backslash too | either | itself |

Evaluation decodes all parts but `\v`, `\e`, `\f`, bytes and code points, which it leaves as they
are written (`decodesParts_doubleQuoted`). Such a part is longer than what it stands for, so a
string is evaluated to its value just in case it has none (`evaluate_quoted_iff`).
-/

import Mathlib.Data.List.TakeWhile
import Scaffold.Proofs.Text.Utf8
import Scaffold.Script.Value
import Scaffold.Text.Reader

namespace Scaffold
namespace Script

/-! ### Parts -/

/-- Some characters between quotes that stand for something together. -/
inductive Part where
  /-- A character that stands for itself. -/
  | plain (c : Char)
  /-- A backslash and `letter`, which stand for the character `c`. -/
  | escaped (letter c : Char)
  /-- A backslash and `spelling`, which stand for one byte. -/
  | byte (spelling : Text) (value : UInt8)
  /-- The hexadecimal digits of a code point, in braces behind a backslash and `u`. -/
  | codePoint (digits : Text)
deriving DecidableEq, Repr

namespace Part

/-- How the part is written. -/
def written : Part → Text
  | .plain c => [c]
  | .escaped letter _ => ['\\', letter]
  | .byte spelling _ => '\\' :: spelling
  | .codePoint digits => "\\u\x7b".toList ++ digits ++ "\x7d".toList

/-- The bytes that the part stands for; none if there is no such code point. -/
def bytes? : Part → Option (List UInt8)
  | .plain c => some (utf8 c.toNat)
  | .escaped _ c => some (utf8 c.toNat)
  | .byte _ value => some [value]
  | .codePoint digits =>
    if hexValue digits ≤ 0x10ffff then some (utf8 (hexValue digits)) else none

/-- Whether evaluation leaves the part as it is written. -/
def isLeft : Part → Bool
  | .plain _ => false
  | .escaped letter _ => letter == 'v' || letter == 'e' || letter == 'f'
  | .byte .. => true
  | .codePoint _ => true

/-- What evaluation makes of the part. -/
def decoded (part : Part) : Text :=
  match part with
  | .plain c => [c]
  | .escaped letter c => if isLeft (.escaped letter c) then ['\\', letter] else [c]
  | other => other.written

end Part

/-- The character that a backslash and a letter or a sign stand for between double quotes. -/
def letter? : Char → Option Char
  | 'n' => some '\n'
  | 't' => some '\t'
  | 'r' => some '\r'
  | 'v' => some '\x0b'
  | 'e' => some '\x1b'
  | 'f' => some '\x0c'
  | '\\' => some '\\'
  | '$' => some '$'
  | '\x22' => some '\x22'
  | _ => none

/-- Whether `c` is an octal digit. -/
def isOctalDigit (c : Char) : Bool := '0' ≤ c && c ≤ '7'

/-- The number that octal digits stand for. -/
def octalValue (digits : Text) : Nat := digits.foldl (fun n c => 8 * n + (c.toNat - 48)) 0

/-- The letter or sign that `rest` starts with, behind a backslash. -/
def letterEscape? (rest : Text) : Option Part :=
  match rest with
  | [] => none
  | c :: _ => (letter? c).map (.escaped c)

/-- The octal digits of a byte that `rest` starts with, behind a backslash. -/
def octalEscape? (rest : Text) : Option Part :=
  let digits := (rest.take 3).takeWhile isOctalDigit
  if digits = [] then none else some (.byte digits (UInt8.ofNat (octalValue digits)))

/-- The hexadecimal digits of a byte that `rest` starts with, behind a backslash. -/
def hexEscape? (rest : Text) : Option Part :=
  let digits := (rest.tail.take 2).takeWhile isHexDigit
  if rest.head? ≠ some 'x' ∨ digits = [] then none
  else some (.byte ('x' :: digits) (UInt8.ofNat (hexValue digits)))

/-- The code point that `rest` starts with, behind a backslash. -/
def codePointEscape? (rest : Text) : Option Part :=
  let digits := (rest.drop 2).takeWhile isHexDigit
  if digits ≠ [] ∧ "u\x7b".toList ++ digits ++ "\x7d".toList <+: rest then some (.codePoint digits)
  else none

/-- The escape between double quotes that a backslash before `rest` begins, if it begins one. -/
def doubleEscape? (rest : Text) : Option Part :=
  (letterEscape? rest).or ((octalEscape? rest).or ((hexEscape? rest).or (codePointEscape? rest)))

/-- The escape between single quotes that a backslash before `rest` begins, if it begins one. -/
def singleEscape? (rest : Text) : Option Part :=
  match rest with
  | '\\' :: _ => some (.escaped '\\' '\\')
  | '\x27' :: _ => some (.escaped '\x27' '\x27')
  | _ => none

/-- The escape that `c` begins before `rest`, if it is a backslash that begins one. -/
def escapeAt? (escape? : Text → Option Part) (c : Char) (rest : Text) : Option Part :=
  if c = '\\' then escape? rest else none

/-- The parts of the characters between quotes, where `escape?` tells the escape that a backslash
begins. -/
def parts (escape? : Text → Option Part) : Text → List Part
  | [] => []
  | c :: rest =>
    match escapeAt? escape? c rest with
    | none => .plain c :: parts escape? rest
    | some part => part :: parts escape? (rest.drop (part.written.length - 1))
termination_by text => text.length
decreasing_by
  · exact Nat.lt_succ_self rest.length
  · exact Text.length_drop_lt_length_cons ..

/-- The parts of a quoted string. There are none where a `$` between double quotes may
interpolate. -/
def literalParts? (literal : Text) : Option (List Part) :=
  match literal with
  | [] => none
  | quote :: rest =>
    let body := rest.dropLast
    if quote = '\x27' then some (parts singleEscape? body)
    else if quote = '\x22' ∧ .plain '$' ∉ parts doubleEscape? body then
      some (parts doubleEscape? body)
    else none

/-- The bytes that parts stand for. -/
def valueOf? (ps : List Part) : Option (List UInt8) := (ps.mapM Part.bytes?).map List.flatten

/-- The bytes that a quoted string stands for. -/
def literalValue? (literal : Text) : Option (List UInt8) := (literalParts? literal).bind valueOf?

/-- Evaluation leaves no part of the quoted string as it is written. -/
def FullyDecoded (literal : Text) : Prop :=
  ∀ ps ∈ literalParts? literal, ∀ p ∈ ps, p.isLeft = false

instance (literal : Text) : Decidable (FullyDecoded literal) :=
  inferInstanceAs (Decidable (∀ ps ∈ literalParts? literal, ∀ p ∈ ps, p.isLeft = false))

/-! ### Decoding by parts -/

/-- The text is decoded part by part, from the left. -/
structure DecodesParts (escape? : Text → Option Part) (decode : Text → Text) : Prop where
  nil : decode [] = []
  cons {c : Char} (h : c ≠ '\\') (rest : Text) : decode (c :: rest) = c :: decode rest
  backslash {rest : Text} (h : escape? rest = none) : decode ('\\' :: rest) = '\\' :: decode rest
  escape {rest : Text} {part : Part} (h : escape? rest = some part) :
    decode ('\\' :: rest) = part.decoded ++ decode (rest.drop (part.written.length - 1))

/-- What is decoded part by part is what the parts are decoded to. -/
theorem DecodesParts.eq_flatMap {escape? : Text → Option Part} {decode : Text → Text}
    (h : DecodesParts escape? decode) (text : Text) :
    decode text = (parts escape? text).flatMap Part.decoded := by
  fun_induction parts escape? text with
  | case1 => exact h.nil
  | case2 c rest hnone ih =>
    have hcons : decode (c :: rest) = c :: decode rest := by
      by_cases hc : c = '\\'
      · subst hc
        exact h.backslash hnone
      · exact h.cons hc rest
    rw [hcons, ih]
    rfl
  | case3 c rest part hsome ih =>
    rw [escapeAt?, Option.ite_none_right_eq_some] at hsome
    obtain ⟨rfl, hescape⟩ := hsome
    rw [h.escape hescape, ih]
    rfl

/-- What holds of characters and of escapes holds of all parts. -/
theorem forall_parts {escape? : Text → Option Part} {P : Part → Prop} {text : Text}
    (hplain : ∀ c ∈ text, P (.plain c))
    (hescape : ∀ rest part, escape? rest = some part → P part) :
    ∀ part ∈ parts escape? text, P part := by
  fun_induction parts escape? text with
  | case1 => exact fun part h => absurd h List.not_mem_nil
  | case2 c rest _ ih =>
    obtain ⟨hc, hrest⟩ := List.forall_mem_cons.1 hplain
    exact List.forall_mem_cons.2 ⟨hc, ih hrest⟩
  | case3 c rest part hsome ih =>
    rw [escapeAt?, Option.ite_none_right_eq_some] at hsome
    exact List.forall_mem_cons.2 ⟨hescape rest part hsome.2,
      ih fun d hd => hplain d (List.mem_cons_of_mem _ (List.mem_of_mem_drop hd))⟩

/-! ### Single quotes -/

/-- Between single quotes a backslash escapes a backslash or the quote. -/
theorem singleEscape?_eq_some_iff {rest : Text} {part : Part} :
    singleEscape? rest = some part ↔
      ∃ c after, rest = c :: after ∧ (c = '\\' ∨ c = '\x27') ∧ part = .escaped c c := by
  unfold singleEscape?
  split <;> grind

/-- Evaluation decodes a text between single quotes part by part. -/
theorem decodesParts_singleQuoted : DecodesParts singleEscape? decodeSingleQuoted where
  nil := rfl
  cons {c} h rest := by
    cases rest with
    | nil => rfl
    | cons d rest => rw [decodeSingleQuoted, if_neg fun hc => h hc.1]
  backslash {rest} h := by
    cases rest with
    | nil => rfl
    | cons d rest =>
      rw [decodeSingleQuoted, if_neg]
      rintro ⟨-, hd⟩
      rw [singleEscape?_eq_some_iff.2 ⟨d, rest, rfl, hd, rfl⟩] at h
      cases h
  escape {rest part} h := by
    obtain ⟨c, after, rfl, hc, rfl⟩ := singleEscape?_eq_some_iff.1 h
    rw [decodeSingleQuoted, if_pos ⟨rfl, hc⟩]
    rcases hc with rfl | rfl <;> rfl

/-! ### Double quotes -/

/-- A letter behind a backslash is decoded, or left with a value of one byte. -/
theorem letter?_cases {c e : Char} (h : letter? c = some e) :
    (Part.escaped c e).isLeft = false ∧ escaped? c = some e ∨
      (Part.escaped c e).isLeft = true ∧ escaped? c = none ∧ (utf8 e.toNat).length = 1 := by
  unfold letter? at h
  split at h <;> cases h <;> decide

/-- A character that is no escape is not decoded. -/
theorem escaped?_eq_none {c : Char} (h : letter? c = none) : escaped? c = none := by
  unfold letter? at h
  unfold escaped?
  split at h <;> simp_all

/-- An octal digit behind a backslash is not decoded. -/
theorem escaped?_of_isOctalDigit {c : Char} (h : isOctalDigit c = true) : escaped? c = none := by
  unfold escaped?
  split <;> first | rfl | exact absurd h (by decide)

/-- The part is an escape that a backslash before `rest` begins, and evaluation leaves it as it is
written. -/
structure LeftAt (part : Part) (rest : Text) : Prop where
  isLeft : part.isLeft = true
  decoded_eq : part.decoded = part.written
  written_eq : ∃ d more after, rest = d :: (more ++ after) ∧ part.written = '\\' :: d :: more ∧
    escaped? d = none ∧ '\\' ∉ more
  shorter : ∀ bytes, part.bytes? = some bytes → bytes.length < (utf8Text part.written).length

/-- An octal escape is left as it is written, and stands for fewer bytes. -/
theorem leftAt_octal {rest : Text} {part : Part} (h : octalEscape? rest = some part) :
    LeftAt part rest := by
  simp only [octalEscape?, Option.ite_none_left_eq_some, Option.some.injEq] at h
  obtain ⟨hne, rfl⟩ := h
  obtain ⟨d, more, hdigits⟩ := List.exists_cons_of_ne_nil hne
  have hoctal : ∀ c ∈ d :: more, isOctalDigit c = true := fun c hc =>
    List.mem_takeWhile_imp (hdigits ▸ hc)
  obtain ⟨after, hafter⟩ := (List.takeWhile_prefix isOctalDigit).trans (List.take_prefix 3 rest)
  rw [hdigits] at hafter ⊢
  refine ⟨rfl, rfl, ⟨d, more, after, hafter.symm, rfl,
    escaped?_of_isOctalDigit (hoctal d List.mem_cons_self), fun hmem => ?_⟩, fun bytes hb => ?_⟩
  · exact absurd (hoctal _ (List.mem_cons_of_mem _ hmem)) (by decide)
  · cases hb
    exact Nat.lt_of_lt_of_le (by simp [Part.written]) (length_le_utf8Text _)

/-- A hexadecimal escape is left as it is written, and stands for fewer bytes. -/
theorem leftAt_hex {rest : Text} {part : Part} (h : hexEscape? rest = some part) :
    LeftAt part rest := by
  simp only [hexEscape?, Option.ite_none_left_eq_some, Option.some.injEq, not_or, not_not] at h
  obtain ⟨⟨hhead, -⟩, rfl⟩ := h
  obtain ⟨more, rfl⟩ := List.head?_eq_some_iff.1 hhead
  obtain ⟨after, hafter⟩ := (List.takeWhile_prefix isHexDigit).trans (List.take_prefix 2 more)
  refine ⟨rfl, rfl, ⟨'x', (more.take 2).takeWhile isHexDigit, after, by rw [hafter], rfl, rfl,
    fun hmem => ?_⟩, fun bytes hb => ?_⟩
  · exact absurd (List.mem_takeWhile_imp hmem) (by decide)
  · cases hb
    exact Nat.lt_of_lt_of_le (by simp [Part.written]) (length_le_utf8Text _)

/-- A code point is left as it is written, and stands for fewer bytes. -/
theorem leftAt_codePoint {rest : Text} {part : Part} (h : codePointEscape? rest = some part) :
    LeftAt part rest := by
  simp only [codePointEscape?, Option.ite_none_right_eq_some, Option.some.injEq] at h
  obtain ⟨⟨hne, after, hafter⟩, rfl⟩ := h
  have hhex : ∀ c ∈ (rest.drop 2).takeWhile isHexDigit, isHexDigit c = true := fun c hc =>
    List.mem_takeWhile_imp hc
  generalize (rest.drop 2).takeWhile isHexDigit = digits at hne hafter hhex
  refine ⟨rfl, rfl, ⟨'u', '\x7b' :: (digits ++ ['\x7d']), after, ?_, rfl, rfl, fun hmem => ?_⟩,
    fun bytes hb => ?_⟩
  · rw [← hafter]
    rfl
  · simp only [List.mem_cons, List.mem_append, List.not_mem_nil, or_false] at hmem
    rcases hmem with hmem | hmem | hmem
    · cases hmem
    · exact absurd (hhex _ hmem) (by decide)
    · cases hmem
  · simp only [Part.bytes?, Option.ite_none_right_eq_some, Option.some.injEq] at hb
    obtain ⟨-, rfl⟩ := hb
    have hdigits := List.length_pos_iff.2 hne
    have hwritten : (Part.written (.codePoint digits)).length = digits.length + 4 := by
      simp [Part.written]
    have hlong := length_le_utf8Text (Part.written (.codePoint digits))
    have hshort := length_utf8_le (hexValue digits)
    omega

/-- An escape that begins is decoded to one character, or it is left as it is written. -/
theorem doubleEscape?_cases {rest : Text} {part : Part} (h : doubleEscape? rest = some part) :
    (∃ d e after, rest = d :: after ∧ part = .escaped d e ∧ part.isLeft = false ∧
      escaped? d = some e) ∨ LeftAt part rest := by
  simp only [doubleEscape?, Option.or_eq_some_iff] at h
  rcases h with h | ⟨-, h | ⟨-, h | ⟨-, h⟩⟩⟩
  · cases rest with
    | nil => cases h
    | cons d after =>
      obtain ⟨e, he, rfl⟩ := Option.map_eq_some_iff.1 h
      rcases letter?_cases he with ⟨hleft, hescaped⟩ | ⟨hleft, hnone, hlength⟩
      · exact Or.inl ⟨d, e, after, rfl, rfl, hleft, hescaped⟩
      · refine Or.inr ⟨hleft, if_pos hleft, ⟨d, [], after, rfl, rfl, hnone, List.not_mem_nil⟩,
          fun bytes hb => ?_⟩
        cases hb
        rw [hlength]
        exact Nat.lt_of_lt_of_le (by simp [Part.written]) (length_le_utf8Text _)
  · exact Or.inr (leftAt_octal h)
  · exact Or.inr (leftAt_hex h)
  · exact Or.inr (leftAt_codePoint h)

/-- A backslash that begins no escape stands before no letter of one. -/
theorem letter?_eq_none_of_doubleEscape? {d : Char} {rest : Text}
    (h : doubleEscape? (d :: rest) = none) : letter? d = none := by
  simp only [doubleEscape?, Option.or_eq_none_iff] at h
  exact Option.map_eq_none_iff.1 h.1

/-- A character that is no backslash is decoded to itself. -/
theorem decodeDoubleQuoted_cons {c : Char} (h : c ≠ '\\') (rest : Text) :
    decodeDoubleQuoted (c :: rest) = c :: decodeDoubleQuoted rest := by
  cases rest with
  | nil => rfl
  | cons d rest => rw [decodeDoubleQuoted, if_neg h]

/-- A text without a backslash is decoded to itself. -/
theorem decodeDoubleQuoted_append {text : Text} (h : '\\' ∉ text) (rest : Text) :
    decodeDoubleQuoted (text ++ rest) = text ++ decodeDoubleQuoted rest := by
  induction text with
  | nil => rfl
  | cons c text ih =>
    rw [List.mem_cons, not_or] at h
    obtain ⟨hc, htext⟩ := h
    rw [List.cons_append, decodeDoubleQuoted_cons (Ne.symm hc), ih htext, List.cons_append]

/-- A backslash and a letter are decoded to what they stand for. -/
theorem decodeDoubleQuoted_escaped {d e : Char} (h : escaped? d = some e) (rest : Text) :
    decodeDoubleQuoted ('\\' :: d :: rest) = e :: decodeDoubleQuoted rest := by
  rw [decodeDoubleQuoted, if_pos rfl]
  simp only [h]

/-- A backslash that guards nothing stands for itself, and so does what it stands before. -/
theorem decodeDoubleQuoted_left {d : Char} (h : escaped? d = none) (rest : Text) :
    decodeDoubleQuoted ('\\' :: d :: rest) = '\\' :: d :: decodeDoubleQuoted rest := by
  rw [decodeDoubleQuoted, if_pos rfl]
  simp only [h]

/-- Evaluation decodes a text between double quotes part by part. -/
theorem decodesParts_doubleQuoted : DecodesParts doubleEscape? decodeDoubleQuoted where
  nil := rfl
  cons h rest := decodeDoubleQuoted_cons h rest
  backslash {rest} h := by
    cases rest with
    | nil => rfl
    | cons d rest =>
      have hletter := letter?_eq_none_of_doubleEscape? h
      have hd : d ≠ '\\' := by
        rintro rfl
        cases hletter
      rw [decodeDoubleQuoted_left (escaped?_eq_none hletter), decodeDoubleQuoted_cons hd]
  escape {rest part} h := by
    rcases doubleEscape?_cases h with ⟨d, e, after, rfl, rfl, hleft, hescaped⟩ | hleft
    · rw [decodeDoubleQuoted_escaped hescaped, Part.decoded, hleft]
      rfl
    · obtain ⟨d, more, after, rfl, hwritten, hnone, hmore⟩ := hleft.written_eq
      have hlength : (part.written.length - 1) = (d :: more).length := by rw [hwritten]; rfl
      rw [hleft.decoded_eq, hlength, ← List.cons_append, List.drop_left, hwritten,
        List.cons_append, decodeDoubleQuoted_left hnone, decodeDoubleQuoted_append hmore]
      rfl

/-! ### Values -/

/-- The value of parts is that of the first and of the others, if both have one. -/
theorem valueOf?_cons_eq_some_iff {p : Part} {ps : List Part} {bytes : List UInt8} :
    valueOf? (p :: ps) = some bytes ↔
      ∃ first later, p.bytes? = some first ∧ valueOf? ps = some later ∧ first ++ later = bytes := by
  simp only [valueOf?, List.mapM_cons, Option.map_eq_some_iff, bind, Option.bind_eq_some_iff, pure,
    Option.some.injEq]
  constructor
  · rintro ⟨found, ⟨first, hfirst, later, hlater, rfl⟩, rfl⟩
    exact ⟨first, later.flatten, hfirst, ⟨later, hlater, rfl⟩, rfl⟩
  · rintro ⟨first, later, hfirst, ⟨found, hfound, rfl⟩, rfl⟩
    exact ⟨first :: found, ⟨first, hfirst, found, hfound, rfl⟩, rfl⟩

/-- A part that is not left as it is written is decoded to what it stands for. -/
theorem Part.bytes?_of_not_left {p : Part} (h : p.isLeft = false) :
    p.bytes? = some (utf8Text p.decoded) := by
  have hone : ∀ c : Char, utf8Text [c] = utf8 c.toNat := fun c => List.append_nil _
  cases p with
  | plain c => rw [decoded, hone, bytes?]
  | escaped letter c => rw [decoded, h, if_neg Bool.false_ne_true, hone, bytes?]
  | byte => cases h
  | codePoint => cases h

/-- Parts that are not left as they are written have the value that they are decoded to. -/
theorem valueOf?_of_not_left {ps : List Part} (h : ∀ p ∈ ps, p.isLeft = false) :
    valueOf? ps = some (utf8Text (ps.flatMap Part.decoded)) := by
  induction ps with
  | nil => rfl
  | cons p ps ih =>
    obtain ⟨hp, hps⟩ := List.forall_mem_cons.1 h
    refine valueOf?_cons_eq_some_iff.2 ⟨_, _, Part.bytes?_of_not_left hp, ih hps, ?_⟩
    rw [List.flatMap_cons, utf8Text_append]

/-- Parts stand for no more bytes than they are decoded to, and for fewer where one is left as it
is written. -/
theorem length_valueOf?_le {ps : List Part} {bytes : List UInt8} (h : valueOf? ps = some bytes)
    (hshorter : ∀ p ∈ ps, p.isLeft = true → ∀ bytes, p.bytes? = some bytes →
      bytes.length < (utf8Text p.decoded).length) :
    bytes.length ≤ (utf8Text (ps.flatMap Part.decoded)).length ∧
      ((∃ p ∈ ps, p.isLeft = true) →
        bytes.length < (utf8Text (ps.flatMap Part.decoded)).length) := by
  induction ps generalizing bytes with
  | nil =>
    cases h
    exact ⟨Nat.le_refl _, by simp⟩
  | cons p ps ih =>
    obtain ⟨first, later, hfirst, hlater, rfl⟩ := valueOf?_cons_eq_some_iff.1 h
    obtain ⟨hp, hps⟩ := List.forall_mem_cons.1 hshorter
    obtain ⟨hle, hlt⟩ := ih hlater hps
    rw [List.flatMap_cons, utf8Text_append, List.length_append, List.length_append]
    have hfirstLe : first.length ≤ (utf8Text p.decoded).length := by
      cases hleft : p.isLeft with
      | true => exact Nat.le_of_lt (hp hleft first hfirst)
      | false =>
        rw [Part.bytes?_of_not_left hleft] at hfirst
        cases hfirst
        exact Nat.le_refl _
    refine ⟨Nat.add_le_add hfirstLe hle, ?_⟩
    rintro ⟨q, hq, hleft⟩
    rcases List.mem_cons.1 hq with rfl | hq
    · exact Nat.add_lt_add_of_lt_of_le (hp hleft first hfirst) hle
    · exact Nat.add_lt_add_of_le_of_lt hfirstLe (hlt ⟨q, hq, hleft⟩)

/-- **Parts are decoded to what they stand for just in case none is left as it is written.** -/
theorem valueOf?_eq_iff {ps : List Part}
    (hshorter : ∀ p ∈ ps, p.isLeft = true → ∀ bytes, p.bytes? = some bytes →
      bytes.length < (utf8Text p.decoded).length) :
    valueOf? ps = some (utf8Text (ps.flatMap Part.decoded)) ↔ ∀ p ∈ ps, p.isLeft = false := by
  refine ⟨fun h p hp => ?_, valueOf?_of_not_left⟩
  by_contra hleft
  rw [Bool.not_eq_false] at hleft
  exact absurd ((length_valueOf?_le h hshorter).2 ⟨p, hp, hleft⟩) (Nat.lt_irrefl _)

/-- Between single quotes no part is left as it is written. -/
theorem not_left_of_mem_single {text : Text} :
    ∀ p ∈ parts singleEscape? text, p.isLeft = false := by
  refine forall_parts (fun _ _ => rfl) fun rest part h => ?_
  obtain ⟨c, after, -, hc, rfl⟩ := singleEscape?_eq_some_iff.1 h
  rcases hc with rfl | rfl <;> rfl

/-- A part that is left as it is written is longer than its value. -/
theorem shorter_of_mem_double {text : Text} : ∀ p ∈ parts doubleEscape? text, p.isLeft = true →
    ∀ bytes, p.bytes? = some bytes → bytes.length < (utf8Text p.decoded).length := by
  refine forall_parts (fun _ _ h => (by cases h)) fun rest part h hleft bytes hb => ?_
  rcases doubleEscape?_cases h with ⟨d, e, after, -, rfl, hnot, -⟩ | hat
  · rw [hnot] at hleft
    cases hleft
  · rw [hat.decoded_eq]
    exact hat.shorter bytes hb

/-- Without a dollar sign in the text there is none among the parts. -/
theorem dollar_not_mem_double {text : Text} (h : '$' ∉ text) :
    Part.plain '$' ∉ parts doubleEscape? text := by
  have hne : ∀ p ∈ parts doubleEscape? text, p ≠ .plain '$' := by
    refine forall_parts (fun c hc he => ?_) fun rest part hpart he => ?_
    · cases he
      exact h hc
    · subst he
      rcases doubleEscape?_cases hpart with ⟨_, _, _, -, hescaped, -⟩ | hat
      · cases hescaped
      · cases hat.isLeft
  exact fun hmem => hne _ hmem rfl

/-- What is between the quotes is decoded part by part. -/
theorem exists_parts_of_unquote? {literal s : Text} (h : unquote? literal = some s) :
    ∃ ps, literalParts? literal = some ps ∧ s = ps.flatMap Part.decoded ∧
      (literal.head? = some '\x27' → ∀ p ∈ ps, p.isLeft = false) ∧
      ∀ p ∈ ps, p.isLeft = true → ∀ bytes, p.bytes? = some bytes →
        bytes.length < (utf8Text p.decoded).length := by
  unfold unquote? at h
  split at h
  · cases h
  rename_i quote rest
  dsimp only at h
  split at h
  · rename_i hsingle
    subst hsingle
    cases h
    refine ⟨_, rfl, decodesParts_singleQuoted.eq_flatMap _, fun _ => not_left_of_mem_single,
      fun p hp hleft => ?_⟩
    rw [not_left_of_mem_single p hp] at hleft
    cases hleft
  · rename_i hsingle
    split at h
    · rename_i hdouble
      obtain ⟨rfl, hdollar⟩ := hdouble
      cases h
      refine ⟨_, if_pos ⟨rfl, dollar_not_mem_double hdollar⟩, ?_, fun hhead => ?_,
        shorter_of_mem_double⟩
      · exact decodesParts_doubleQuoted.eq_flatMap _
      · exact absurd (Option.some.inj hhead) hsingle
    · cases h

/-- The expression of one token. -/
def Expression.single (token : Token) : Expression := ⟨[token], List.cons_ne_nil token []⟩

/-- A string that evaluates to a text is unquoted to it. -/
theorem unquote?_of_evaluate {source : Text} {names : Names} {token : Token}
    (hk : token.kind = .string) {s : Text}
    (h : (Expression.single token).evaluate source names = .known s) :
    unquote? token.text = some s := by
  simp only [Expression.evaluate, Expression.single, if_pos hk] at h
  split at h
  · rename_i value hvalue
    cases h
    exact hvalue
  · cases h

/-- **A quoted string is evaluated to its value just in case all its parts are decoded**, which
those between single quotes always are. Among such strings, those with the same value are the ones
that are evaluated alike. -/
theorem evaluate_quoted_iff {source : Text} {names : Names} {token : Token}
    (hk : token.kind = .string) {s : Text}
    (h : (Expression.single token).evaluate source names = .known s) :
    (literalValue? token.text = some (utf8Text s) ↔ FullyDecoded token.text) ∧
    (token.text.head? = some '\x27' → FullyDecoded token.text) ∧
    ∀ other : Token, other.kind = .string → ∀ t,
      (Expression.single other).evaluate source names = .known t →
      FullyDecoded token.text → FullyDecoded other.text →
      (s = t ↔ literalValue? token.text = literalValue? other.text) := by
  have hvalue : ∀ (token : Token) (s : Text), token.kind = .string →
      (Expression.single token).evaluate source names = .known s →
      (literalValue? token.text = some (utf8Text s) ↔ FullyDecoded token.text) := by
    intro token s hk h
    obtain ⟨ps, hps, rfl, -, hshorter⟩ := exists_parts_of_unquote? (unquote?_of_evaluate hk h)
    rw [literalValue?, hps, Option.bind_some, valueOf?_eq_iff hshorter]
    constructor
    · intro hleft qs hqs
      rw [hps] at hqs
      cases hqs
      exact hleft
    · exact fun hfull => hfull ps hps
  refine ⟨hvalue token s hk h, fun hhead qs hqs => ?_, fun other hk' t h' hfull hfull' => ?_⟩
  · obtain ⟨ps, hps, -, hsingle, -⟩ := exists_parts_of_unquote? (unquote?_of_evaluate hk h)
    rw [hps] at hqs
    cases hqs
    exact hsingle hhead
  · rw [(hvalue token s hk h).2 hfull, (hvalue other t hk' h').2 hfull', Option.some.injEq]
    exact utf8Text_injective.eq_iff.symm

/-- A name between double quotes and between single quotes, with as many backslashes as each
needs. -/
theorem evaluate_quoted_iff_alike :
    let token : Token := ⟨.string, 0, "\"App\\\\Foo\"".toList⟩
    let other : Token := ⟨.string, 0, "'App\\Foo'".toList⟩
    (Expression.single token).evaluate [] .global = .known "App\\Foo".toList ∧
      literalValue? token.text = some (utf8Text "App\\Foo".toList) ∧
      literalValue? token.text = literalValue? other.text := by
  intro token other
  have htoken : (Expression.single token).evaluate [] .global = .known "App\\Foo".toList := by
    decide +kernel
  have hother : (Expression.single other).evaluate [] .global = .known "App\\Foo".toList := by
    decide +kernel
  have hfull : FullyDecoded token.text := by decide +kernel
  obtain ⟨hvalue, -, halike⟩ := evaluate_quoted_iff rfl htoken
  have hsingle := (@evaluate_quoted_iff [] .global other rfl _ hother).2.1 (by decide +kernel)
  exact ⟨htoken, hvalue.2 hfull, (halike other rfl _ hother hfull hsingle).1 rfl⟩

/-- A byte that is written with hexadecimal digits is evaluated to these, so it is taken for another
string than the character that it stands for. -/
theorem hex_escape_left :
    let token : Token := ⟨.string, 0, "\"\\x41\"".toList⟩
    let other : Token := ⟨.string, 0, "'A'".toList⟩
    (Expression.single token).evaluate [] .global = .known "\\x41".toList ∧
      (Expression.single other).evaluate [] .global = .known "A".toList ∧
      literalValue? token.text = some (utf8Text "A".toList) ∧
      literalValue? other.text = some (utf8Text "A".toList) := by
  decide +kernel

end Script
end Scaffold

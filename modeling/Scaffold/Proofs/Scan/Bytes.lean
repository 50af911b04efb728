/-
# The tokens of a source text, by bytes

`tokenizeBytes?` scans the bytes of a source text and gives the places of tokens in bytes. Before an
opening tag may stand white space in the sense of Unicode, so there the scan leaves the bytes for
the characters: it cuts the text at places that it has found in the bytes, and gives nothing where
such a place is inside a character.

| place | in the bytes |
| --- | --- |
| behind a byte order mark | the third byte |
| behind the line of an interpreter | behind the first newline, or at the end of the text |
| behind an opening tag | the fifth byte behind the white space |

Main statement: no cut fails, and the scan of the bytes finds what the scan of the characters finds,
at the same characters (`tokenizeBytes?_eq`).
-/

import Scaffold.Proofs.Scan.ByteSteps
import Scaffold.Proofs.Scan.Opening

namespace Scaffold
namespace Script

/-! ### Scanning bytes -/

/-- The number of bytes of a byte order mark and a line that names an interpreter, where they
stand. -/
def shebangWidth (bytes : Text) : Nat :=
  let mark := if (octets ['\uFEFF']).isPrefixOf bytes then 3 else 0
  let line := bytes.drop mark
  if line.take 2 = ['#', '!'] then
    match line.dropWhile (· != '\n') with
    | [] => bytes.length
    | _ :: _ => mark + (line.takeWhile (· != '\n')).length + 1
  else mark

/-- The number of bytes before an opening tag, if there is one; nothing where the text would be cut
inside a character. -/
def tagPlace? (source : Text) : Option (Option Nat) :=
  (cutAt? source (shebangWidth (octets source))).map fun cut =>
    let opened := cut.2.dropWhile isBlank
    let named := (cutAt? opened 5).any fun tag => Text.equalsIgnoringCase tag.1 "<?php".toList
    if named && ((octets opened).drop 5).head?.all isAsciiBlank then
      some ((octets source).length - (octets opened).length)
    else none

/-- The pieces of a source text, by bytes. -/
def scanBytes? (source : Text) : Option (Except FaultAt (List Piece)) :=
  (tagPlace? source).map fun
    | none => pieces 0 (octets source)
    | some place =>
      (pieces (place + 5) ((octets source).drop (place + 5))).map fun later =>
        ⟨.preamble, (octets source).take place⟩ ::
          ⟨.token .openTag, ((octets source).drop place).take 5⟩ :: later

/-- The tokens of a source text, by bytes. -/
def tokenizeBytes? (source : Text) : Option (Except FaultAt (List Token)) :=
  (scanBytes? source).map fun found => found.map (Token.ofPieces 0)

/-- A token with its place in the bytes of the source text. -/
def Token.inBytes (source : Text) (t : Token) : Token :=
  ⟨t.kind, byteOffset source t.start, octets t.text⟩

/-! ### The first line -/

/-- A byte order mark has three bytes. -/
theorem byteOffset_markLength (source : Text) :
    (if (octets ['\uFEFF']).isPrefixOf (octets source) then 3 else 0) =
      byteOffset source (markLength source) := by
  have hmark : (octets ['\uFEFF']).isPrefixOf (octets source) = true ↔
      source.head? = some '\uFEFF' := by
    rw [List.isPrefixOf_iff_prefix, octets_prefix_iff, List.head?_eq_some_iff]
    exact exists_congr fun rest => eq_comm
  unfold markLength
  simp only [hmark]
  split
  · rename_i h
    obtain ⟨rest, rfl⟩ := List.head?_eq_some_iff.1 h
    rw [byteOffset_cons]
    rfl
  · rfl

/-- A line that a newline ends has one byte more than what stands before the newline. -/
theorem byteOffset_line {line after : Text} {c : Char}
    (h : line.dropWhile (· != '\n') = c :: after) :
    byteOffset line ((line.takeWhile (· != '\n')).length + 1) =
      (octets (line.takeWhile (· != '\n'))).length + 1 := by
  have hsplit := List.takeWhile_append_dropWhile (p := (· != '\n')) (l := line)
  have hnewline := List.head?_dropWhile_not (· != '\n') line
  rw [h] at hsplit hnewline
  obtain rfl : c = '\n' := by simpa using hnewline
  generalize line.takeWhile (· != '\n') = name at hsplit ⊢
  rw [← hsplit, byteOffset_append, byteOffset_cons_ascii rfl, byteOffset_zero]

/-- The last line ends with the text. -/
theorem byteOffset_line_last {line : Text} (h : line.dropWhile (· != '\n') = []) :
    byteOffset line ((line.takeWhile (· != '\n')).length + 1) = (octets line).length := by
  have hsplit := List.takeWhile_append_dropWhile (p := (· != '\n')) (l := line)
  rw [h, List.append_nil] at hsplit
  rw [hsplit, byteOffset_of_length_le (Nat.le_succ line.length)]

/-- **The first line ends where its characters end.** -/
theorem shebangWidth_octets (source : Text) :
    shebangWidth (octets source) = byteOffset source (shebangLength source) := by
  have hname : (octets (source.drop (markLength source))).take 2 = ['#', '!'] ↔
      (source.drop (markLength source)).take 2 = ['#', '!'] :=
    take_octets_iff (a := ['#', '!']) rfl _
  have hbreak := uniform_ne (a := '\n') rfl
  rw [shebangLength_eq]
  simp only [shebangWidth, byteOffset_markLength, drop_octets, takeWhile_octets hbreak,
    dropWhile_octets hbreak, hname]
  split
  · rw [Nat.add_assoc (markLength source), byteOffset_add]
    cases hafter : (source.drop (markLength source)).dropWhile (· != '\n') with
    | nil =>
      have hwhole := congrArg List.length
        (congrArg octets (List.take_append_drop (markLength source) source))
      rw [octets_append, List.length_append, length_octets_take] at hwhole
      rw [byteOffset_line_last hafter, hwhole]
      rfl
    | cons c after =>
      obtain ⟨d, more, hc, -⟩ := exists_octets_singleton c
      rw [byteOffset_line hafter, octets_cons, hc, List.cons_append, Nat.add_assoc]
  · rfl

/-! ### The opening tag -/

/-- A wide character is no capital letter of ASCII. -/
theorem toLower_of_isWide {c : Char} (h : isWide c = true) : c.toLower = c := by
  unfold Char.toLower
  split
  · rename_i hupper
    have hle : c.toNat ≤ 90 := UInt32.le_iff_toNat_le.1 hupper.2
    rw [isWide, decide_eq_true_eq] at h
    omega
  · rfl

/-- The name of an opening tag is five ASCII characters. -/
theorem tagName_spec {tag : Text} (h : Text.equalsIgnoringCase tag "<?php".toList = true) :
    tag.length = 5 ∧ octets tag = tag := by
  have hname : tag.map Char.toLower = "<?php".toList := by
    simpa [Text.equalsIgnoringCase] using h
  refine ⟨?_, octets_of_ascii (List.any_eq_false.2 fun c hc hwide => ?_)⟩
  · rw [← List.length_map Char.toLower, hname]
    rfl
  · have hlower : c.toLower ∈ "<?php".toList := hname ▸ List.mem_map_of_mem hc
    have hascii : "<?php".toList.any isWide = false := rfl
    rw [toLower_of_isWide hwide] at hlower
    exact List.any_eq_false.1 hascii c hlower hwide

/-- The fifth position behind which an opening tag's name ends is the fifth byte. -/
theorem byteOffset_tagName {opened : Text}
    (h : Text.equalsIgnoringCase (opened.take 5) "<?php".toList = true) :
    byteOffset opened 5 = 5 := by
  obtain ⟨hlength, hoctets⟩ := tagName_spec h
  rw [← length_octets_take, hoctets, hlength]

/-- The name of an opening tag is found in the bytes where it is found in the text. -/
theorem any_cutAt?_tagName (opened : Text) :
    ((cutAt? opened 5).any fun tag => Text.equalsIgnoringCase tag.1 "<?php".toList) =
      Text.equalsIgnoringCase (opened.take 5) "<?php".toList := by
  rw [Bool.eq_iff_iff, Option.any_eq_true]
  constructor
  · rintro ⟨⟨tag, rest⟩, hcut, hname⟩
    obtain ⟨rfl, -⟩ := cutAt?_eq_some_iff.1 hcut
    rwa [List.take_left' (tagName_spec hname).1]
  · intro hname
    have hcut := cutAt?_byteOffset opened 5
    rw [byteOffset_tagName hname] at hcut
    exact ⟨_, hcut, hname⟩

/-- **An opening tag stands in the bytes where it stands in the text.** -/
theorem tagPlace?_eq (source : Text) :
    tagPlace? source = some ((openTag? source).map fun found => (octets found.1).length) := by
  rw [tagPlace?, shebangWidth_octets, cutAt?_byteOffset, Option.map_some]
  refine congrArg some ?_
  have hsource := List.take_append_drop (shebangLength source) source
  unfold openTag?
  generalize shebangLength source = k at hsource
  simp only [any_cutAt?_tagName]
  have hbody := List.takeWhile_append_dropWhile (p := isBlank) (l := source.drop k)
  generalize source.drop k = body at hsource hbody
  generalize (body.dropWhile isBlank) = opened at hbody ⊢
  cases hname : Text.equalsIgnoringCase (opened.take 5) "<?php".toList with
  | false => rfl
  | true =>
    have hnext := drop_octets opened 5
    rw [byteOffset_tagName hname] at hnext
    rw [hnext, all_head?_octets uniform_isAsciiBlank]
    split
    · have hlength : (octets source).length =
          (octets (source.take k ++ body.takeWhile isBlank)).length + (octets opened).length := by
        conv_lhs => rw [← hsource, ← hbody, ← List.append_assoc, octets_append, List.length_append]
      rw [hlength, Nat.add_sub_cancel]
      rfl
    · rfl

/-- What is found as an opening tag has the name of one. -/
theorem openTag?_name {source before tag rest : Text}
    (h : openTag? source = some (before, tag, rest)) :
    Text.equalsIgnoringCase tag "<?php".toList = true := by
  simp only [openTag?, Option.ite_none_right_eq_some, Option.some.injEq, Prod.mk.injEq,
    Bool.and_eq_true] at h
  obtain ⟨⟨hname, -⟩, -, rfl, -⟩ := h
  exact hname

/-! ### The pieces and the tokens -/

/-- **The scan of the bytes finds the octets of the pieces**, and never cuts a character. -/
theorem scanBytes?_eq (source : Text) :
    scanBytes? source =
      some (((scan source).map (List.map Piece.inOctets)).mapError (FaultAt.inBytes source)) := by
  rw [scanBytes?, tagPlace?_eq, Option.map_some]
  refine congrArg some ?_
  unfold scan
  cases htag : openTag? source with
  | none => exact pieces_octets (List.nil_append source).symm
  | some found =>
    obtain ⟨before, tag, rest⟩ := found
    obtain ⟨hlength, hascii⟩ := tagName_spec (openTag?_name htag)
    have hsource := append_of_openTag? htag
    have hwhole : source = (before ++ tag) ++ rest := by rw [List.append_assoc, hsource]
    have hlater := pieces_octets hwhole
    have hplace : (octets (before ++ tag)).length = (octets before).length + 5 := by
      rw [octets_append, List.length_append, hascii, hlength]
    have hbytes : octets source = octets before ++ (tag ++ octets rest) := by
      rw [← hsource, octets_append, octets_append, hascii]
    have hdrop : (octets source).drop ((octets before).length + 5) = octets rest := by
      rw [hbytes, ← List.drop_drop, List.drop_left, List.drop_left' hlength]
    have hname : ((octets source).drop (octets before).length).take 5 = tag := by
      rw [hbytes, List.drop_left, List.take_left' hlength]
    have hbefore : (octets source).take (octets before).length = octets before := by
      rw [hbytes, List.take_left]
    rw [hplace, List.length_append] at hlater
    simp only [Option.map_some, hdrop, hname, hbefore, hlater]
    cases pieces (before.length + tag.length) rest with
    | error fault => rfl
    | ok later =>
      have htoken : Piece.inOctets ⟨.token .openTag, tag⟩ = ⟨.token .openTag, tag⟩ :=
        congrArg (Piece.mk _) hascii
      simp only [Except.map, Except.mapError, List.map_cons, htoken]
      rfl

/-- The tokens among the octets of pieces are the tokens among the pieces, by bytes. -/
theorem ofPieces_inOctets {source x : Text} {ps : List Piece}
    (hs : x ++ (ps.map Piece.text).flatten = source) :
    Token.ofPieces (octets x).length (ps.map Piece.inOctets) =
      (Token.ofPieces x.length ps).map (Token.inBytes source) := by
  induction ps generalizing x with
  | nil => rfl
  | cons p ps ih =>
    obtain ⟨kind, text⟩ := p
    have hplace : byteOffset source x.length = (octets x).length := by
      rw [← hs, byteOffset_length]
    have hlater := ih (x := x ++ text) (by rw [← hs, List.append_assoc]; rfl)
    rw [octets_append, List.length_append, List.length_append] at hlater
    cases kind with
    | token kind =>
      have htoken : Token.inBytes source ⟨kind, x.length, text⟩ =
          ⟨kind, (octets x).length, octets text⟩ :=
        congrArg (Token.mk kind · (octets text)) hplace
      exact congrArg₂ List.cons htoken.symm hlater
    | _ => exact hlater

/-- **The tokens by bytes are the tokens by characters**, with their places in the bytes. -/
theorem tokenizeBytes?_eq (source : Text) :
    tokenizeBytes? source =
      some (((tokenize source).map (List.map (Token.inBytes source))).mapError
        (FaultAt.inBytes source)) := by
  rw [tokenizeBytes?, scanBytes?_eq, Option.map_some, tokenize]
  refine congrArg some ?_
  cases hscan : scan source with
  | error fault => rfl
  | ok ps => exact congrArg Except.ok (ofPieces_inOctets (x := []) (flatten_scan hscan))

end Script
end Scaffold

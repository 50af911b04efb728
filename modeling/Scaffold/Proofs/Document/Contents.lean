/-
# What is enclosed is never structure

The text inside a string between apostrophes, or inside a comment, gives way to another one. Then
the source has the same tokens but for that string, it is read as a document if and only if it was
read before, and its array literals have the same items with the same keys and values, up to the
text that changed (`contents_inert`). That holds for brackets, quotes, tags and openers of comments
and heredocs inside the new text.

One text is not taken as it is: behind three angle signs a string that starts like a name is the
label of a heredoc (`label_behind_angles`). There is no other one (`Enclosure.scan_around_iff`).
-/

import Scaffold.Config.Document
import Scaffold.Proofs.Literal.Swap
import Scaffold.Proofs.Scan.Contents

namespace Scaffold

open Script (Enclosure Fault Piece Swap Token)

namespace Script.Enclosure

variable {e : Enclosure} {body body' : Text} {ps qs : List Piece}

/-- Another text inside the enclosure between the given pieces. -/
def swap (e : Enclosure) (body body' : Text) (ps qs : List Piece) : Swap where
  before := textOf ps
  old := (e.around body).text
  new := (e.around body').text
  after := textOf qs
  ne_nil := by cases e <;> exact List.cons_ne_nil _ _

/-- The tokens behind the enclosure, and the enclosure itself if it is a token. -/
theorem ofPieces_around (e : Enclosure) (body : Text) (offset : Nat) (qs : List Piece) :
    Token.ofPieces offset (e.around body :: qs) =
      (if e = .quoted then [⟨.string, offset, (e.around body).text⟩] else []) ++
        Token.ofPieces (offset + (e.around body).text.length) qs := by
  cases e <;> rfl

/-- The tokens of the pieces around another text are those of the swap. -/
theorem ofPieces_swap :
    (Token.ofPieces 0 (ps ++ e.around body :: qs)).map (e.swap body body' ps qs).token =
        Token.ofPieces 0 (ps ++ e.around body' :: qs) ∧
      ∀ t ∈ Token.ofPieces 0 (ps ++ e.around body :: qs), (e.swap body body' ps qs).Whole t := by
  have hps : ∀ t ∈ Token.ofPieces 0 ps, t.stop ≤ (e.swap body body' ps qs).before.length :=
    fun t ht => by
      have := (Token.bounds_of_mem_ofPieces ht).2
      rwa [Nat.zero_add] at this
  have hqs : ∀ t ∈ Token.ofPieces ((textOf ps).length + (e.around body).text.length) qs,
      (e.swap body body' ps qs).before.length + (e.swap body body' ps qs).old.length ≤ t.start :=
    fun t ht => (Token.bounds_of_mem_ofPieces ht).1
  have hmoved : (Token.ofPieces ((textOf ps).length + (e.around body).text.length) qs).map
      (e.swap body body' ps qs).token =
        Token.ofPieces ((textOf ps).length + (e.around body').text.length) qs :=
    (List.map_congr_left fun t ht => Swap.token_of_ge (hqs t ht)).trans
      (Token.map_move_ofPieces _ _ qs)
  have hkept : (Token.ofPieces 0 ps).map (e.swap body body' ps qs).token = Token.ofPieces 0 ps :=
    (List.map_congr_left fun t ht => Swap.token_of_le (hps t ht)).trans (List.map_id _)
  rw [Token.ofPieces_append, Token.ofPieces_append, ofPieces_around, ofPieces_around, Nat.zero_add]
  constructor
  · rw [List.map_append, List.map_append, hkept, hmoved]
    split
    · rename_i hquoted
      subst hquoted
      rw [List.map_singleton]
      exact congrArg (fun t => _ ++ ([t] ++ _)) Swap.token_oldToken
    · rfl
  · intro t ht
    rcases List.mem_append.1 ht with ht | ht
    · exact .of_le (hps t ht)
    · rcases List.mem_append.1 ht with ht | ht
      · split at ht
        · rename_i hquoted
          subst hquoted
          obtain rfl := List.mem_singleton.1 ht
          exact Swap.Whole.oldToken
        · cases ht
      · exact .of_ge (hqs t ht)

/-- **The tokens of a source with another text inside an enclosure.** -/
theorem tokenize_swap {source : Text} {tokens : List Token}
    (hscan : scan source = .ok (ps ++ e.around body :: qs)) (htokens : tokenize source = .ok tokens)
    (hopen : tokens.head?.map Token.kind = some .openTag) (hbody : e.Admits (textOf ps) body') :
    (e.swap body body' ps qs).source = source ∧
      tokenize (e.swap body body' ps qs).result =
        .ok (tokens.map (e.swap body body' ps qs).token) ∧
      ∀ t ∈ tokens, (e.swap body body' ps qs).Whole t := by
  have hsome := isSome_openTag? htokens hopen
  obtain rfl : Token.ofPieces 0 (ps ++ e.around body :: qs) = tokens := by
    rw [tokenize, hscan] at htokens
    exact Except.ok.inj htokens
  refine ⟨?_, ?_, ofPieces_swap.2⟩
  · have hflat := flatten_scan hscan
    have htext : textOf (ps ++ e.around body :: qs) = source := hflat
    rw [textOf_append, textOf_cons] at htext
    exact htext
  · have hscan' : scan (e.swap body body' ps qs).result = .ok (ps ++ e.around body' :: qs) :=
      scan_around hscan hsome hbody
    rw [tokenize, hscan', ofPieces_swap.1]
    rfl

end Script.Enclosure

namespace Config.Document

/-- Two readings of the two source texts of a swap: both have the same fault, at corresponding
positions, or both come to a document, with the same names and corresponding tokens and returned
arrays. -/
inductive ParsedAlike (s : Swap) : Except DocumentError Document → Except DocumentError Document →
    Prop
  | refused (offset : Nat) (fault : Fault) :
      ParsedAlike s (.error (.malformedAt s.source offset (.fault fault)))
        (.error (.malformedAt s.result (s.position offset) (.fault fault)))
  | parsed {d d' : Document} (source : d.source = s.source) (source' : d'.source = s.result)
      (names : d'.file.names = d.file.names)
      (tokens : List.Forall₂ s.TokenAlike d.file.tokens d'.file.tokens)
      (root : s.LiteralAlike d.file.root d'.file.root) : ParsedAlike s (.ok d) (.ok d')

/-- A relocated file is read as a document alike. -/
theorem parse_alike {s : Swap} {tokens : List Token} (h : Script.tokenize s.source = .ok tokens)
    (h' : Script.tokenize s.result = .ok (tokens.map s.token)) (hwhole : ∀ t ∈ tokens, s.Whole t) :
    ParsedAlike s (parse s.source) (parse s.result) := by
  have hread : Script.SourceFile.read s.result =
      s.relocation.outcome s.relocation.file (Script.SourceFile.read s.source) :=
    Script.SourceFile.read_relocate s.relocation h h' s.length_result
      fun t ht => (hwhole t ht).fits
  unfold parse read
  rw [hread]
  cases hfile : Script.SourceFile.read s.source with
  | error found => exact .refused found.offset found.fault
  | ok file =>
    obtain ⟨P, r, op, I, c, E, htokens, hfiletokens, -, hspans, -⟩ :=
      Script.SourceFile.read_eq_ok_iff.1 hfile
    obtain rfl := Except.ok.inj (h.symm.trans htokens)
    refine .parsed rfl rfl rfl (s.tokens_alike file.tokens) ?_
    refine Swap.literal_alike hspans fun t ht => hwhole t ?_
    exact List.mem_append_right _ (List.mem_cons_of_mem _
      (List.mem_append_right _ (List.mem_append_left _ ht)))

/-- **Contents of strings and comments never become structure.** Another text that the enclosure
admits leaves all other tokens as they are. The source is read as a document if and only if it was
before, and from the same tokens an array literal with the same items is read, up to the text
inside. -/
theorem contents_inert {source : Text} {tokens : List Token} {ps qs : List Piece} {e : Enclosure}
    {body body' : Text} (hscan : Script.scan source = .ok (ps ++ e.around body :: qs))
    (htokens : Script.tokenize source = .ok tokens)
    (hopen : tokens.head?.map Token.kind = some .openTag)
    (hbody : e.Admits (Script.textOf ps) body') :
    let s := e.swap body body' ps qs
    s.source = source ∧ ∃ tokens', Script.tokenize s.result = .ok tokens' ∧
      List.Forall₂ s.TokenAlike tokens tokens' ∧
      ParsedAlike s (parse s.source) (parse s.result) ∧
      ∀ n k, s.ReadAlike (Script.ArrayLiteral.read? ((tokens.drop n).take k))
        (Script.ArrayLiteral.read? ((tokens'.drop n).take k)) := by
  intro s
  obtain ⟨hsource, htokens', hwhole⟩ := Enclosure.tokenize_swap hscan htokens hopen hbody
  rw [← hsource] at htokens
  refine ⟨hsource, _, htokens', s.tokens_alike tokens, parse_alike htokens htokens' hwhole,
    fun n k => ?_⟩
  rw [← List.map_drop, ← List.map_take]
  exact Swap.read?_alike fun t ht => hwhole t (List.mem_of_mem_drop (List.mem_of_mem_take ht))

/-- Brackets, tags, and openers of comments and of a heredoc in the place of one letter. -/
theorem contents_inert_at_brackets :
    let source := "<?php return['a'];".toList
    let ps : List Piece := [⟨.preamble, []⟩, ⟨.token .openTag, "<?php".toList⟩, ⟨.blank, [' ']⟩,
      ⟨.token .word, "return".toList⟩, ⟨.token (.opening .square), ['[']⟩]
    let qs : List Piece := [⟨.token (.closing .square), [']']⟩, ⟨.token .semicolon, [';']⟩]
    let s := Enclosure.quoted.swap ['a'] "], ?>\"/*#[<<<X".toList ps qs
    Script.scan source = .ok (ps ++ Enclosure.quoted.around ['a'] :: qs) ∧
      Enclosure.quoted.Admits (Script.textOf ps) "], ?>\"/*#[<<<X".toList ∧
      s.result = "<?php return['], ?>\"/*#[<<<X'];".toList ∧
      ParsedAlike s (parse s.source) (parse s.result) := by
  intro source ps qs s
  have hscan : Script.scan source = .ok (ps ++ Enclosure.quoted.around ['a'] :: qs) :=
    Script.eq_ok_of_toOption (by decide +kernel)
  have htokens : Script.tokenize source = .ok ((Script.tokenize source).toOption.getD []) :=
    Script.eq_ok_of_toOption (by decide +kernel)
  have hbody : Enclosure.quoted.Admits (Script.textOf ps) "], ?>\"/*#[<<<X".toList := by decide
  obtain ⟨-, -, -, -, hparse, -⟩ := contents_inert hscan htokens (by decide +kernel) hbody
  exact ⟨hscan, hbody, by decide, hparse⟩

/-- Behind three angle signs the text of a string may be the label of a heredoc, so another text
there makes a malformed heredoc of a string. -/
theorem label_behind_angles :
    let source := "<?php\nreturn ['k' => 1 <<<'1'];\n".toList
    let found := (Script.scan source).toOption.getD []
    let s := Enclosure.quoted.swap ['1'] "abc".toList (found.take 15) (found.drop 16)
    Script.scan source =
        .ok (found.take 15 ++ Enclosure.quoted.around ['1'] :: found.drop 16) ∧
      (Token.ofPieces 0 found).head?.map Token.kind = some .openTag ∧
      Enclosure.quoted.Holds "abc".toList ∧
      s.result = "<?php\nreturn ['k' => 1 <<<'abc'];\n".toList ∧
      (parse source).toOption.isSome ∧
      ¬(∃ tokens, Script.tokenize s.result = .ok tokens) ∧ ¬∃ d, parse s.result = .ok d := by
  intro source found s
  have htokens : (Script.tokenize s.result).toOption = none := by decide +kernel
  have hparse : (parse s.result).toOption = none := by decide +kernel
  refine ⟨Script.eq_ok_of_toOption (by decide +kernel), by decide +kernel, by decide,
    by decide +kernel, by decide +kernel, ?_, ?_⟩
  · rintro ⟨tokens, h⟩
    rw [h] at htokens
    cases htokens
  · rintro ⟨d, h⟩
    rw [h] at hparse
    cases hparse

end Config.Document
end Scaffold

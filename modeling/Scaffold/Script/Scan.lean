/-
# Cutting a source text into pieces

`pieceAt` looks at the next character and says what kind of piece starts there and how many of the
following characters belong to it. `pieces` repeats this to the end of the text or to a closing
tag, and `scan` first sets aside what stands before an opening tag.

| piece | from | to |
| --- | --- | --- |
| comment | `//` or `#` not before `[` | before a newline, before `?>`, or the end |
| comment | `/*` | the first `*/` after it |
| string | a quote | the same quote, where a backslash guards the next character |
| string | `<<<` and a label | a line that starts with the label |
| word | a word character | the last word character in a row |

Every character outside ASCII is a word character. Main statement: the pieces of a text, put
together, are the text (`flatten_pieces`, `flatten_scan`).
-/

import Scaffold.Script.Fault
import Scaffold.Script.Token
import Scaffold.Text.Blank

namespace Scaffold.Script

/-- A white space character between tokens. -/
def isGap (c : Char) : Bool := isAsciiBlank c || c == '\x0b'

/-- A character of a word: a letter, a digit, an underscore, a namespace separator, or any
character outside ASCII. -/
def isWordChar (c : Char) : Bool := c.isAlphanum || c == '_' || c == '\\' || 0x80 ≤ c.toNat

/-- A character that a name may start with. -/
def isNameStart (c : Char) : Bool := c.isAlpha || c == '_' || 0x80 ≤ c.toNat

/-! ### Comments -/

/-- The length of a line comment: up to a newline, a closing tag or the end. -/
def lineCommentLength : Text → Nat
  | [] => 0
  | c :: rest =>
    if c = '\n' ∨ (c = '?' ∧ rest.head? = some '>') then 0 else lineCommentLength rest + 1

/-- The number of characters through the first `*/`, if there is one. -/
def blockCommentLength : Text → Option Nat
  | [] => none
  | c :: rest =>
    if c = '*' ∧ rest.head? = some '/' then some 2 else (blockCommentLength rest).map (· + 1)

/-- Whether a comment starts with `c` before `rest`. A `#` before `[` starts an attribute. -/
def startsComment (c : Char) (rest : Text) : Bool :=
  if c = '/' then rest.head? = some '/' || rest.head? = some '*'
  else c = '#' && rest.head? != some '['

/-- How many characters of `rest` belong to the comment that starts with `c`; `none` if it is a
block comment without an end. -/
def commentLength (c : Char) (rest : Text) : Option Nat :=
  if c = '/' ∧ rest.head? = some '*' then (blockCommentLength rest.tail).map (· + 1)
  else some (lineCommentLength rest)

/-- The end of the last comment that starts before the position `limit`, looked for in the text that
starts at `place`; `last` where there is none, and nothing if a comment has no end. A comment that
goes on behind the limit ends there. -/
def commentEndFrom (limit last place : Nat) : Text → Option Nat
  | [] => some last
  | c :: rest =>
    if limit ≤ place then some last
    else if startsComment c rest then
      match commentLength c rest with
      | none => none
      | some more =>
        let stop := place + 1 + more
        commentEndFrom limit (min stop limit) stop (rest.drop more)
    else commentEndFrom limit last (place + 1) rest
termination_by text => text.length
decreasing_by
  · exact Text.length_drop_lt_length_cons ..
  · exact Nat.lt_succ_self rest.length

/-- The end of the last comment between two positions of a source text that holds only white space
and comments there; `start` where there is no comment, and `stop` where one has no end. -/
def lastCommentEnd (source : Text) (start stop : Nat) : Nat :=
  (commentEndFrom stop start start (source.drop start)).getD stop

/-! ### Strings -/

/-- The number of characters through the closing quote, if there is one. A backslash guards the
character after it. -/
def quotedLength (quote : Char) : Text → Option Nat
  | [] => none
  | [c] => if c = quote then some 1 else none
  | c :: d :: rest =>
    if c = '\\' then (quotedLength quote rest).map (· + 2)
    else if c = quote then some 1
    else (quotedLength quote (d :: rest)).map (· + 1)

/-- Whether a line of a heredoc ends it: white space, then the label, and no word goes on. -/
def closesHeredoc (label line : Text) : Bool :=
  let body := line.dropWhile Text.isIndent
  label.isPrefixOf body && !(body.drop label.length).head?.any isWordChar

/-- The number of characters of a heredoc's body through the label that ends it, if one does;
`fresh` says that a line starts here. -/
def heredocBodyLength (label : Text) (fresh : Bool) : Text → Option Nat
  | [] => none
  | c :: rest =>
    if fresh && closesHeredoc label (c :: rest) then
      some (((c :: rest).takeWhile Text.isIndent).length + label.length)
    else (heredocBodyLength label (c == '\n') rest).map (· + 1)

/-- The piece that starts with three angle signs and goes on with `rest`: a heredoc if a label
follows, a symbol otherwise. The label may be quoted and must end its line. -/
def heredocPiece (rest : Text) : Except Fault (PieceKind × Nat) :=
  let blanks := rest.takeWhile Text.isIndent
  let opened := rest.drop blanks.length
  let quote := opened.head?.toList.filter fun c => c == '\x27' || c == '\x22'
  let named := opened.drop quote.length
  let label := if named.head?.any isNameStart then named.takeWhile isWordChar else []
  if label.isEmpty then .ok (.token .symbol, 0)
  else
    let ended := named.drop label.length
    if !quote.isPrefixOf ended then .error .malformedHeredocLabel
    else
      let lineEnd := ended.drop quote.length
      let body := if lineEnd.head? = some '\r' then lineEnd.tail else lineEnd
      if body.head? ≠ some '\n' then .error .malformedHeredocLabel
      else
        match heredocBodyLength label true body.tail with
        | none => .error .unterminatedHeredoc
        | some more => .ok (.token .string, 2 + (rest.length - body.tail.length) + more)

/-! ### Pieces -/

/-- The kind of a token of one character that needs no second look. -/
def punctuation? (c : Char) : Option TokenKind :=
  match c with
  | '[' => some (.opening .square)
  | ']' => some (.closing .square)
  | '(' => some (.opening .round)
  | ')' => some (.closing .round)
  | '\x7b' => some (.opening .curly)
  | '\x7d' => some (.closing .curly)
  | ',' => some .comma
  | ';' => some .semicolon
  | _ => none

/-- The kind of a token of two characters. -/
def pair? (c : Char) (rest : Text) : Option TokenKind :=
  match c, rest.head? with
  | '?', some '>' => some .closeTag
  | '=', some '>' => some .doubleArrow
  | ':', some ':' => some .doubleColon
  | _, _ => none

/-- Whether `c` opens and closes a string: an apostrophe, a double quote or a grave accent. -/
def isQuote (c : Char) : Bool := c == '\x27' || c == '\x22' || c == '\x60'

/-- What kind of piece starts with `c`, and how many characters of `rest` belong to it. -/
def pieceAt (c : Char) (rest : Text) : Except Fault (PieceKind × Nat) :=
  if isGap c then .ok (.blank, 0)
  else if startsComment c rest then
    match commentLength c rest with
    | some more => .ok (.comment, more)
    | none => .error .unterminatedComment
  else if isQuote c then
    match quotedLength c rest with
    | some more => .ok (.token .string, more)
    | none => .error .unterminatedString
  else if c = '<' ∧ rest.take 2 = ['<', '<'] then heredocPiece (rest.drop 2)
  else
    match pair? c rest, punctuation? c with
    | some kind, _ => .ok (.token kind, 1)
    | none, some kind => .ok (.token kind, 0)
    | none, none =>
      if c = '$' ∧ rest.head?.any isNameStart then
        .ok (.token .variableName, (rest.takeWhile isWordChar).length)
      else if isWordChar c then .ok (.token .word, (rest.takeWhile isWordChar).length)
      else .ok (.token .symbol, 0)

/-- The pieces of the text that starts at position `offset`. -/
def pieces (offset : Nat) : Text → Except FaultAt (List Piece)
  | [] => .ok []
  | c :: rest =>
    match pieceAt c rest with
    | .error fault => .error ⟨fault, offset⟩
    | .ok (kind, more) =>
      let piece : Piece := ⟨kind, c :: rest.take more⟩
      if kind = .token .closeTag then .ok [piece, ⟨.outside, rest.drop more⟩]
      else (pieces (offset + piece.text.length) (rest.drop more)).map (piece :: ·)
termination_by text => text.length
decreasing_by exact Text.length_drop_lt_length_cons ..

/-! ### The opening tag -/

/-- The length of a byte order mark and a line that names an interpreter, where they stand. -/
def shebangLength (source : Text) : Nat :=
  let mark := if source.head? = some '\uFEFF' then 1 else 0
  let line := source.drop mark
  if line.take 2 = ['#', '!'] then mark + (line.takeWhile (· != '\n')).length + 1 else mark

/-- What stands before the opening tag, the tag, and what follows it. The tag must be followed by
white space or by nothing. -/
def openTag? (source : Text) : Option (Text × Text × Text) :=
  let body := source.drop (shebangLength source)
  let opened := body.dropWhile isBlank
  let tag := opened.take 5
  let rest := opened.drop 5
  if Text.equalsIgnoringCase tag "<?php".toList && rest.head?.all isAsciiBlank then
    some (source.take (shebangLength source) ++ body.takeWhile isBlank, tag, rest)
  else none

/-- The pieces of a source text. Without an opening tag at its head, all of it is read as
program text. -/
def scan (source : Text) : Except FaultAt (List Piece) :=
  match openTag? source with
  | none => pieces 0 source
  | some (before, tag, rest) =>
    (pieces (before.length + tag.length) rest).map fun later =>
      ⟨.preamble, before⟩ :: ⟨.token .openTag, tag⟩ :: later

/-- The tokens of a source text. -/
def tokenize (source : Text) : Except FaultAt (List Token) :=
  (scan source).map (Token.ofPieces 0)

/-! ### Nothing is lost -/

/-- The pieces of a text, put together, are the text. -/
theorem flatten_pieces {offset : Nat} {text : Text} {found : List Piece}
    (h : pieces offset text = .ok found) : (found.map Piece.text).flatten = text := by
  fun_induction pieces offset text generalizing found with
  | case1 => cases h; rfl
  | case2 => cases h
  | case3 => cases h; simp +zetaDelta
  | case4 =>
    rename_i piece _ ih
    obtain ⟨later, hp, rfl⟩ := map_eq_ok_iff.1 h
    simp [ih hp, piece]

/-- An opening tag parts the text in three. -/
theorem append_of_openTag? {source before tag rest : Text}
    (h : openTag? source = some (before, tag, rest)) : before ++ (tag ++ rest) = source := by
  simp only [openTag?, Option.ite_none_right_eq_some, Option.some.injEq, Prod.mk.injEq] at h
  obtain ⟨_, rfl, rfl, rfl⟩ := h
  rw [List.take_append_drop, List.append_assoc, List.takeWhile_append_dropWhile,
    List.take_append_drop]

/-- The pieces of a source text, put together, are the source text. -/
theorem flatten_scan {source : Text} {found : List Piece} (h : scan source = .ok found) :
    (found.map Piece.text).flatten = source := by
  unfold scan at h
  split at h
  · exact flatten_pieces h
  · rename_i before tag rest ht
    obtain ⟨later, hp, rfl⟩ := map_eq_ok_iff.1 h
    simpa [flatten_pieces hp] using append_of_openTag? ht

end Scaffold.Script

/-
# Where a new item goes

A new item is the last of its array literal and is written the way the document is written: the
indentation and the line breaks that the document uses, a comma after the item where the last item
has one, one line where the literal stands on one line. Comments stay where they are.

| literal | place of the new item |
| --- | --- |
| empty, closing bracket on its own line | a line of its own before that line |
| empty otherwise | a line of its own, and a new line for the closing bracket |
| on one line | after the last item or its comma |
| on several lines | a line of its own, after the last item and a comment to its right |
-/

import Scaffold.Script.ArrayLiteral
import Scaffold.Script.Scan
import Scaffold.Text.Blank

namespace Scaffold.Config

open Script (ArrayLiteral)

/-- Puts `text` in the place of the characters from `start` to `stop`. -/
structure Edit where
  start : Nat
  stop : Nat
  text : Text
deriving DecidableEq, Repr

namespace Edit

/-- Puts `text` at a place and takes nothing away. -/
def insert (place : Nat) (text : Text) : Edit := ⟨place, place, text⟩

/-- The source text with the edit made. -/
def apply (edit : Edit) (source : Text) : Text :=
  source.take edit.start ++ edit.text ++ source.drop edit.stop

/-- Applies edits that are listed from the end of the source text to its start. -/
def applyAll (edits : List Edit) (source : Text) : Text :=
  edits.foldl (fun text edit => edit.apply text) source

end Edit

/-- How a document is laid out. -/
structure Layout where
  indentUnit : Text
  newline : Text
deriving DecidableEq, Repr

/-- Whether a line of the text ends with a carriage return and a newline. -/
def usesCarriageReturn : Text → Bool
  | [] => false
  | c :: rest => (c == '\r' && rest.head? == some '\n') || usesCarriageReturn rest

/-- What a line is indented with. A line without text says nothing about indentation, and neither
does one that starts with an asterisk, which goes on with a comment. -/
def indentOf? (line : Text) : Option Text :=
  let body := line.dropWhile Text.isIndent
  if body.isEmpty || body.head? == some '*' then none else some (line.takeWhile Text.isIndent)

/-- The layout of a document. It is indented with tabs if a line is, and otherwise by the least
indentation of two characters or more; where no line is indented, by four spaces. -/
def Layout.detect (source : Text) : Layout :=
  let indents := source.lines.filterMap indentOf?
  { newline := if usesCarriageReturn source then ['\r', '\n'] else ['\n'],
    indentUnit :=
      if indents.any fun indent => indent.head? == some '\t' then ['\t']
      else List.replicate (((indents.map List.length).filter (2 ≤ ·)).min?.getD 4) ' ' }

/-- Where the line that holds a position starts. -/
def lineStart (source : Text) (offset : Nat) : Nat :=
  offset - (Text.afterLast '\n' (source.take offset)).length

/-- What the line that holds a position is indented with. -/
def lineIndent (source : Text) (offset : Nat) : Text :=
  (source.drop (lineStart source offset)).takeWhile Text.isIndent

/-- Steps back over a carriage return just before a position. -/
def beforeCarriageReturn (source : Text) (offset : Nat) : Nat :=
  if (source.take offset).getLast? = some '\r' then offset - 1 else offset

/-- Whether a text starts with a line comment. -/
def startsLineComment (text : Text) : Bool :=
  text.take 2 == ['/', '/'] || (text.head? == some '#' && text.take 2 != ['#', '['])

/-- Where a new line may be opened after the position `start`: at the end of the line if only
white space or a line comment follows there, otherwise at `start`. Only the text before `limit`
counts. -/
def endOfLine (source : Text) (start limit : Nat) : Nat :=
  let rest := source.slice start limit
  let line := rest.takeWhile (· != '\n')
  let shown := Text.trim line
  if line.length < rest.length ∧ (shown.isEmpty ∨ startsLineComment shown) then
    beforeCarriageReturn source (start + line.length)
  else start

/-- What a new item of a literal on several lines is indented with: as the last item or the first,
whichever starts a line, and otherwise one step deeper than the literal. -/
def itemIndent (source : Text) (literal : ArrayLiteral) (layout : Layout) : Text :=
  let own := [literal.items.getLast?, literal.items.head?].findSome? fun item =>
    item.bind fun item =>
      let before := source.slice (lineStart source item.start) item.start
      if before.all Text.isIndent then some before else none
  own.getD (lineIndent source literal.start ++ layout.indentUnit)

/-- The edits that append an item, already written, to an empty literal. -/
def insertIntoEmpty (source : Text) (literal : ArrayLiteral) (item : Text) : List Edit :=
  let layout := Layout.detect source
  let outerIndent := lineIndent source literal.start
  let line := layout.newline ++ (outerIndent ++ layout.indentUnit) ++ item ++ [',']
  let commentsEnd := Script.lastCommentEnd source literal.openStop literal.close
  match Text.beforeLast? '\n' (source.slice commentsEnd literal.close) with
  | some blanks =>
    [.insert (beforeCarriageReturn source (commentsEnd + blanks.length)) line]
  | none =>
    let text := line ++ layout.newline ++ outerIndent
    if (literal.body source).trim.isEmpty then [⟨literal.openStop, literal.close, text⟩]
    else [.insert literal.close text]

/-- The edits that append an item, already written, to a literal whose last item is `last`. -/
def insertAfter (source : Text) (literal : ArrayLiteral) (last : Script.Item) (item : Text) :
    List Edit :=
  if literal.isMultiline source then
    let layout := Layout.detect source
    let line := layout.newline ++ itemIndent source literal layout ++ item
    match last.comma with
    | some comma => [.insert (endOfLine source (comma + 1) literal.close) (line ++ [','])]
    | none =>
      let place := endOfLine source last.stop literal.close
      if place = last.stop then [.insert place (',' :: line)]
      else [.insert place line, .insert last.stop [',']]
  else
    match last.comma with
    | some comma => [.insert (comma + 1) (' ' :: item ++ [','])]
    | none => [.insert last.stop (',' :: ' ' :: item)]

/-- The edits that append an item, already written, to a literal. -/
def insertItem (source : Text) (literal : ArrayLiteral) (item : Text) : List Edit :=
  match literal.items.getLast? with
  | none => insertIntoEmpty source literal item
  | some last => insertAfter source literal last item

end Scaffold.Config

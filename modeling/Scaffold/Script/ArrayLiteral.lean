/-
# Array literals

An array literal is written `[ … ]` or `array( … )`; it lists items separated by commas, each a
value or `key => value`. `ArrayLiteral.read?` reads the literal at the head of a token list and
leaves the tokens after it. Brackets inside an item are matched but not looked into: a nested
literal is read when someone asks for it, from the tokens of the value that holds it.
-/

import Scaffold.Script.Fault
import Scaffold.Script.Token

namespace Scaffold.Script

/-- How an array literal is written. -/
inductive ArrayStyle where
  /-- `[ … ]` -/
  | short
  /-- `array( … )` -/
  | long
deriving DecidableEq, Repr

/-- The bracket that closes a literal of this style. -/
def ArrayStyle.bracket : ArrayStyle → Bracket
  | .short => .square
  | .long => .round

/-- An empty literal of this style. -/
def ArrayStyle.emptyLiteral : ArrayStyle → Text
  | .short => "[]".toList
  | .long => "array()".toList

/-- The tokens of an expression, at least one. -/
structure Expression where
  tokens : List Token
  nonempty : tokens ≠ []
deriving DecidableEq, Repr

namespace Expression

/-- Where the first token of the expression starts. -/
def start (e : Expression) : Nat := (e.tokens.head e.nonempty).start

/-- Where the last token of the expression ends. -/
def stop (e : Expression) : Nat := (e.tokens.getLast e.nonempty).stop

/-- The expression as it stands in the source text, with the white space and comments inside. -/
def written (e : Expression) (source : Text) : Text := source.slice e.start e.stop

/-- The expression that ends with the token `last` after the tokens `before`, which are given from
the last to the first. -/
def ofReversed (last : Token) (before : List Token) : Expression :=
  ⟨(last :: before).reverse, by simp⟩

end Expression

/-- One element of an array literal. -/
structure Item where
  key : Option Expression
  value : Expression
  /-- Where the comma after the item stands, if there is one. -/
  comma : Option Nat
deriving DecidableEq, Repr

namespace Item

/-- Where the item starts: at its key, or at its value if it has no key. -/
def start (item : Item) : Nat := (item.key.getD item.value).start

/-- Where the item ends, its comma left out. -/
def stop (item : Item) : Nat := item.value.stop

end Item

/-- An array literal in a source text. -/
structure ArrayLiteral where
  style : ArrayStyle
  /-- Where the literal starts: at its bracket or at the word before it. -/
  start : Nat
  /-- The position just past the opening bracket. -/
  openStop : Nat
  items : List Item
  /-- Where the closing bracket stands. -/
  close : Nat
deriving DecidableEq, Repr

namespace ArrayLiteral

/-- Where the comma after the last item stands, if there is one. -/
def trailingComma (literal : ArrayLiteral) : Option Nat := literal.items.getLast?.bind Item.comma

/-- The text between the brackets. -/
def body (literal : ArrayLiteral) (source : Text) : Text :=
  source.slice literal.openStop literal.close

/-- Whether the brackets stand on different lines. -/
def isMultiline (literal : ArrayLiteral) (source : Text) : Bool :=
  (literal.body source).contains '\n'

end ArrayLiteral

/-- What has been read of an item, the newest token first. -/
inductive PartialItem where
  | nothing
  /-- Tokens before any arrow. -/
  | bare (last : Token) (before : List Token)
  /-- A key, its arrow, and the tokens after the arrow. -/
  | keyed (key : Expression) (arrow : Token) (value : List Token)

namespace PartialItem

/-- One more token of the item. -/
def push (token : Token) : PartialItem → PartialItem
  | .nothing => .bare token []
  | .bare last before => .bare token (last :: before)
  | .keyed key arrow value => .keyed key arrow (token :: value)

/-- The arrow between key and value: it follows a key, and an item has one at most. -/
def arrow (token : Token) : PartialItem → Except FaultAt PartialItem
  | .bare last before => .ok (.keyed (.ofReversed last before) token [])
  | _ => .error ⟨.unexpectedArrow, token.start⟩

/-- The item that ends here, before the comma given; nothing where no item was begun. -/
def finish (comma : Option Nat) : PartialItem → Except FaultAt (Option Item)
  | .nothing => .ok none
  | .bare last before => .ok (some ⟨none, .ofReversed last before, comma⟩)
  | .keyed _ arrow [] => .error ⟨.missingValue, arrow.start⟩
  | .keyed key _ (last :: before) => .ok (some ⟨some key, .ofReversed last before, comma⟩)

end PartialItem

/-- The items up to the closing bracket, the place of that bracket, and the tokens after it.

`outer` is the bracket that closes the literal and `opened` the place where it was opened; `inner`
are the brackets opened inside the current item, the innermost first. -/
def readItems (outer : Bracket) (opened : Nat) (inner : List Bracket) (item : PartialItem) :
    List Token → Except FaultAt (List Item × Nat × List Token)
  | [] => .error ⟨.unclosedArray, opened⟩
  | token :: rest =>
    match token.kind, inner with
    | .openTag, _ | .closeTag, _ => .error ⟨.unclosedArray, opened⟩
    | .opening shape, _ => readItems outer opened (shape :: inner) (item.push token) rest
    | .closing shape, innermost :: others =>
      if shape = innermost then readItems outer opened others (item.push token) rest
      else .error ⟨.mismatchedBracket, token.start⟩
    | .closing shape, [] =>
      if shape = outer then
        match item.finish none with
        | .error fault => .error fault
        | .ok last => .ok (last.toList, token.start, rest)
      else .error ⟨.mismatchedBracket, token.start⟩
    | .comma, [] =>
      match item.finish (some token.start) with
      | .error fault => .error fault
      | .ok none => .error ⟨.emptyElement, token.start⟩
      | .ok (some done) =>
        (readItems outer opened [] .nothing rest).map fun (items, close, after) =>
          (done :: items, close, after)
    | .doubleArrow, [] =>
      match item.arrow token with
      | .error fault => .error fault
      | .ok keyed => readItems outer opened [] keyed rest
    | .semicolon, [] => .error ⟨.unexpectedSemicolon, token.start⟩
    | _, _ => readItems outer opened inner (item.push token) rest

/-- The head of an array literal. -/
structure ArrayOpening where
  style : ArrayStyle
  /-- Where the literal starts: at its bracket or at the word before it. -/
  start : Nat
  bracket : Token
  /-- The tokens after the bracket. -/
  inside : List Token
deriving DecidableEq, Repr

/-- The head of the array literal that the tokens start with, if they start with one. -/
def ArrayOpening.read? : List Token → Option ArrayOpening
  | [] => none
  | first :: rest =>
    if first.kind = .opening .square then some ⟨.short, first.start, first, rest⟩
    else
      match rest with
      | bracket :: inside =>
        if first.isWord "array".toList ∧ bracket.kind = .opening .round then
          some ⟨.long, first.start, bracket, inside⟩
        else none
      | [] => none

/-- The array literal at the head of the tokens and the tokens after it; nothing if none opens
there. -/
def ArrayLiteral.read? (tokens : List Token) :
    Except FaultAt (Option (ArrayLiteral × List Token)) :=
  match ArrayOpening.read? tokens with
  | none => .ok none
  | some ⟨style, start, bracket, inside⟩ =>
    (readItems style.bracket bracket.start [] .nothing inside).map fun (items, close, rest) =>
      some ({ style, start, openStop := bracket.stop, items, close }, rest)

end Scaffold.Script

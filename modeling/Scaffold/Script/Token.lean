/-
# Tokens and pieces

A configuration file is cut into pieces that lose nothing: tokens, comments, single white space
characters, the preamble before an opening tag and the text after a closing tag. Only the tokens
that matter for finding array literals are told apart; a string literal or a heredoc is one token,
so nothing inside it is taken for structure.
-/

import Scaffold.Text.Basic

namespace Scaffold.Script

/-- The three shapes of brackets. -/
inductive Bracket where
  | square
  | round
  | curly
deriving DecidableEq, Repr

/-- What a token is. -/
inductive TokenKind where
  /-- The tag that starts a program. -/
  | openTag
  /-- The tag that ends a program. -/
  | closeTag
  | opening (shape : Bracket)
  | closing (shape : Bracket)
  | comma
  | doubleArrow
  | doubleColon
  | semicolon
  /-- A quoted string or a heredoc, as a whole. -/
  | string
  /-- A keyword, a number or a name, with its namespace separators. -/
  | word
  /-- A dollar sign and the name that follows it. -/
  | variableName
  /-- Any other single character. -/
  | symbol
deriving DecidableEq, Repr

/-- What a piece of a source text is. -/
inductive PieceKind where
  /-- All that stands before the opening tag. -/
  | preamble
  /-- One white space character. -/
  | blank
  | comment
  | token (kind : TokenKind)
  /-- All that follows the closing tag. -/
  | outside
deriving DecidableEq, Repr

/-- A piece of a source text. -/
structure Piece where
  kind : PieceKind
  text : Text
deriving DecidableEq, Repr

/-- A token and where it starts. -/
structure Token where
  kind : TokenKind
  /-- How many characters stand before it. -/
  start : Nat
  text : Text
deriving DecidableEq, Repr

namespace Token

/-- The position just past the token. -/
def stop (token : Token) : Nat := token.start + token.text.length

/-- Whether the token is the given word; the case of ASCII letters does not count. -/
def isWord (token : Token) (word : Text) : Bool :=
  token.kind == .word && Text.equalsIgnoringCase token.text word

/-- The tokens among the pieces that start at position `offset`. -/
def ofPieces (offset : Nat) : List Piece → List Token
  | [] => []
  | piece :: rest =>
    let later := ofPieces (offset + piece.text.length) rest
    match piece.kind with
    | .token kind => ⟨kind, offset, piece.text⟩ :: later
    | _ => later

end Token
end Scaffold.Script

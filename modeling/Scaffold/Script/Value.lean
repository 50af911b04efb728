/-
# What an expression evaluates to

Some expressions have a string value that can be read off the text: a quoted string without
interpolation, a decimal integer, and `Name::class`. Every other expression is compared as it is
written.
-/

import Scaffold.Script.ArrayLiteral
import Scaffold.Script.Names

namespace Scaffold.Script

/-- The value of an expression, as far as the text alone tells. -/
inductive Value where
  /-- A string known without running anything. -/
  | known (value : Text)
  /-- Any other expression, as written. -/
  | verbatim (source : Text)
deriving DecidableEq, Repr

/-- How a value is named in a message. -/
def Value.describe : Value → Text
  | .known value => '\x27' :: value ++ ['\x27']
  | .verbatim source => source

/-- The string that stands between apostrophes: a backslash guards a backslash or an
apostrophe, and stands for itself before anything else. -/
def decodeSingleQuoted : Text → Text
  | [] => []
  | [c] => [c]
  | c :: d :: rest =>
    if c = '\\' ∧ (d = '\\' ∨ d = '\x27') then d :: decodeSingleQuoted rest
    else c :: decodeSingleQuoted (d :: rest)

/-- The character that a backslash and `c` stand for between double quotes, if together they
stand for one. -/
def escaped? (c : Char) : Option Char :=
  match c with
  | 'n' => some '\n'
  | 't' => some '\t'
  | 'r' => some '\r'
  | '\\' => some '\\'
  | '\x22' => some '\x22'
  | '$' => some '$'
  | _ => none

/-- The string that stands between double quotes. -/
def decodeDoubleQuoted : Text → Text
  | [] => []
  | [c] => [c]
  | c :: d :: rest =>
    if c = '\\' then
      match escaped? d with
      | some e => e :: decodeDoubleQuoted rest
      | none => c :: d :: decodeDoubleQuoted rest
    else c :: decodeDoubleQuoted (d :: rest)

/-- The value of a string token; nothing for a heredoc, for grave accents, and where a dollar sign
between double quotes may interpolate. -/
def unquote? (literal : Text) : Option Text :=
  match literal with
  | [] => none
  | quote :: rest =>
    let body := rest.dropLast
    if quote = '\x27' then some (decodeSingleQuoted body)
    else if quote = '\x22' ∧ '$' ∉ body then some (decodeDoubleQuoted body)
    else none

/-- Whether a word is a decimal integer without superfluous zeros. -/
def isDecimal (word : Text) : Bool :=
  word == ['0'] || (word.head? != some '0' && !word.isEmpty && word.all Char.isDigit)

/-- Whether a class name stands for a class that only the running program knows. -/
def isRelativeClass (name : Text) : Bool :=
  ["self", "static", "parent"].any fun word => Text.equalsIgnoringCase name word.toList

/-- The value of an expression of a file with the given names. -/
def Expression.evaluate (source : Text) (names : Names) (e : Expression) : Value :=
  let verbatim := Value.verbatim (e.written source)
  match e.tokens with
  | [single] =>
    if single.kind = .string then
      match unquote? single.text with
      | some value => .known value
      | none => verbatim
    else if single.kind = .word ∧ isDecimal single.text then .known single.text
    else verbatim
  | [name, colons, keyword] =>
    if name.kind = .word ∧ colons.kind = .doubleColon ∧ keyword.isWord "class".toList
        ∧ ¬isRelativeClass name.text then
      .known (names.resolve name.text)
    else verbatim
  | _ => verbatim

end Scaffold.Script

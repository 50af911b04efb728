/-
# Literals that are written into a document

A key or a value is a string or a reference to a class. A string is written between apostrophes,
with a backslash before each backslash and each apostrophe. A class is written as it is named if
the names of the file leave that name alone, and absolutely otherwise.
-/

import Scaffold.Script.Names

namespace Scaffold.Config

/-- A key or a value to write. -/
inductive Literal where
  | string (value : Text)
  /-- A reference to the class with this full name, which has no leading separator. -/
  | classRef (name : Text)
deriving DecidableEq, Repr

namespace Literal

/-- A reference to a class whose name may start with separators. -/
def ofClass (name : Text) : Literal := .classRef (name.dropWhile (· == '\\'))

/-- The string that the literal evaluates to. -/
def evaluated : Literal → Text
  | .string value => value
  | .classRef name => name

/-- A text with a backslash before each backslash and each apostrophe. -/
def escape (value : Text) : Text :=
  value.flatMap fun c => if c = '\\' ∨ c = '\x27' then ['\\', c] else [c]

/-- How the literal is written in a file with the given names. -/
def toSource (names : Script.Names) : Literal → Text
  | .string value => '\x27' :: escape value ++ ['\x27']
  | .classRef name =>
    (if names.resolve name = name then name else '\\' :: name) ++ "::class".toList

end Literal
end Scaffold.Config

/-
# Class names

A class name is a list of identifiers separated by backslashes, with no backslash in front: the
namespace and the short name of the class.
-/

import Scaffold.Failure
import Scaffold.Text.Blank

namespace Scaffold

/-- A character that an identifier may start with: a letter, an underscore, or any character
outside ASCII. -/
def isIdentifierStart (c : Char) : Bool := c.isAlpha || c == '_' || 0x80 ≤ c.toNat

/-- A character of an identifier. -/
def isIdentifierChar (c : Char) : Bool := c.isAlphanum || c == '_' || 0x80 ≤ c.toNat

/-- Whether a text is an identifier. -/
def isIdentifier (text : Text) : Bool :=
  match text with
  | [] => false
  | c :: rest => isIdentifierStart c && rest.all isIdentifierChar

/-- The full name of a class. -/
structure ClassName where
  text : Text
deriving DecidableEq, Repr

namespace ClassName

/-- Reads a class name. White space around it and leading backslashes are dropped. -/
def parse (written : Text) : Except Failure ClassName :=
  let name := written.trim.dropWhile (· == '\\')
  if (name.splitOn '\\').all isIdentifier then .ok ⟨name⟩ else .error (.invalidClassName written)

/-- The name without its namespace. -/
def shortName (name : ClassName) : Text := Text.afterLast '\\' name.text

/-- The namespace, if the class has one. -/
def space? (name : ClassName) : Option Text := Text.beforeLast? '\\' name.text

/-- The name in the same namespace whose short name goes on with `suffix`. -/
def withSuffix (name : ClassName) (suffix : Text) : ClassName := ⟨name.text ++ suffix⟩

end ClassName
end Scaffold

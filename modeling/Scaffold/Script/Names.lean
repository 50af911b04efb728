/-
# Class names in a file

A file may declare a namespace and import names; both decide what a written class name means. A
name that starts with a separator is absolute. Otherwise its first segment is looked up among the
imports, and a name that no import covers belongs to the namespace.
-/

import Scaffold.Text.Basic

namespace Scaffold.Script

/-- An imported name and what stands for it in the file. -/
structure Import where
  /-- Compared without regard to the case of ASCII letters. -/
  localName : Text
  target : Text
deriving DecidableEq, Repr

/-- The namespace of a file and its imports, in the order in which they are written. -/
structure Names where
  current : Option Text
  imports : List Import
deriving DecidableEq, Repr

namespace Names

/-- No namespace and no imports. -/
def global : Names := ⟨none, []⟩

/-- A name relative to the namespace. -/
def qualify (names : Names) (relative : Text) : Text :=
  match names.current with
  | none => relative
  | some current => current ++ '\\' :: relative

/-- The last import of a local name. -/
def import? (names : Names) (localName : Text) : Option Import :=
  names.imports.findRev? fun i => Text.equalsIgnoringCase i.localName localName

/-- The full name, without a leading separator, that a class name written in the file stands
for. -/
def resolve (names : Names) (written : Text) : Text :=
  if written.head? = some '\\' then written.tail
  else if Text.equalsIgnoringCase (written.take 10) "namespace\\".toList then
    names.qualify (written.drop 10)
  else
    let first := written.takeWhile (· != '\\')
    match names.import? first with
    | some found => found.target ++ written.drop first.length
    | none => names.qualify written

end Names
end Scaffold.Script

/-
# Why a document cannot be read or edited
-/

import Scaffold.Config.SectionPath
import Scaffold.Script.Fault
import Scaffold.Text.Position

namespace Scaffold.Config

/-- What is wrong at a place of a document. -/
inductive Problem where
  | fault (cause : Script.Fault)
  /-- The section was written, but a reading of the document does not find it. -/
  | sectionNotCreated (path : SectionPath)
  /-- The entry was written, but a reading of the document does not find it. -/
  | entryNotAdded (path : SectionPath)
deriving DecidableEq, Repr

/-- The wording of a problem. -/
def Problem.message : Problem → String
  | .fault cause => cause.message
  | .sectionNotCreated path => "could not create section '" ++ String.ofList path.display ++ "'"
  | .entryNotAdded path =>
    "could not add an entry to section '" ++ String.ofList path.display ++ "'"

/-- Why a document cannot be read or edited. -/
inductive DocumentError where
  /-- The text is not one returned array literal. -/
  | malformed (place : Position) (problem : Problem)
  /-- A section on the way is missing. -/
  | sectionNotFound (path : SectionPath)
  /-- A section on the way is something other than an array literal. -/
  | notAnArray (path : SectionPath)
  /-- A key occurs more than once in one section. -/
  | ambiguousKey (path : SectionPath) (key : Text)
deriving DecidableEq, Repr

namespace DocumentError

/-- The error of a problem at a position of the source text. -/
def malformedAt (source : Text) (offset : Nat) (problem : Problem) : DocumentError :=
  .malformed (source.position offset) problem

/-- A few words for the kind of the error. -/
def kind : DocumentError → String
  | .malformed .. => "parse error"
  | .sectionNotFound _ => "section not found"
  | .notAnArray _ => "not an array"
  | .ambiguousKey .. => "ambiguous key"

/-- The wording of the error. -/
def message : DocumentError → String
  | .malformed place problem =>
    s!"parse error at line {place.line}, column {place.column}: {problem.message}"
  | .sectionNotFound path => s!"section '{String.ofList path.display}' not found"
  | .notAnArray path => s!"section '{String.ofList path.display}' is not an array literal"
  | .ambiguousKey path key =>
    s!"key {String.ofList key} occurs more than once in section '{String.ofList path.display}'"

end DocumentError
end Scaffold.Config

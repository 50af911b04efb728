/-
# Registering factories

The aggregation file of a project binds classes to their factories, in one section. Registering a
factory sets one entry there. A file in which the entry already stands is not written again.
-/

import Scaffold.ClassName
import Scaffold.Config.Document
import Scaffold.Project
import Scaffold.Settings

namespace Scaffold

open Config (Change Document Literal SectionPath)

/-- What registering a factory did. -/
structure Registration where
  /-- The aggregation file. -/
  path : Path
  change : Change
  /-- Whether there was no aggregation file before. -/
  createdFile : Bool
deriving DecidableEq, Repr

namespace Registration

/-- Whether the aggregation file was written. -/
def written (registration : Registration) : Bool :=
  registration.createdFile || registration.change != .unchanged

/-- The section that binds classes to factories. -/
def factoriesSection : SectionPath := ⟨["dependencies".toList, "factories".toList]⟩

/-- Binds a class to its factory in a document. -/
def setFactory (factory target : ClassName) (document : Document) :
    Document × Except Config.DocumentError Change :=
  document.setEntry factoriesSection (.ofClass target.text) (.ofClass factory.text)

variable {m : Type → Type} [Monad m] [Disk m]

/-- Reads a configuration file of a project. -/
def loadDocument (project : Project) (path : Path) : Action m Document := do
  if ← ExceptT.lift (project.isPresent path) then
    let source ← project.read path
    Action.ofExcept ((Document.parse source).mapError (.configFile path))
  else throw (.notFound path)

/-- Reads the aggregation file, or starts it empty where it is missing and may be created. -/
def openDocument (project : Project) (settings : InjectorSettings) (path : Path) :
    Action m Document := do
  if ← ExceptT.lift (project.isPresent path) then loadDocument project path
  else if settings.createMissing then return .empty
  else throw (.configFileNotFound path)

/-- Binds a class to its factory in the aggregation file of a project. -/
def register (project : Project) (settings : InjectorSettings) (factory target : ClassName) :
    Action m Registration := do
  let path := project.resolve settings.configFile
  let document ← openDocument project settings path
  let (changed, result) := setFactory factory target document
  let change ← Action.ofExcept (result.mapError (.configFile path))
  let registration : Registration := { path, change, createdFile := changed.created }
  if registration.written then project.write path changed.render
  return registration

end Registration
end Scaffold

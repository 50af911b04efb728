/-
# What a project says about itself

The settings file sets how factories are named and registered. The package manifest and then the
settings file bind namespaces to directories; a later binding takes the place of an earlier one.
Both files may be missing.
-/

import Scaffold.Autoload
import Scaffold.Manifest
import Scaffold.Project
import Scaffold.Settings

namespace Scaffold

/-- A project, its settings, and where its classes lie. -/
structure Context where
  project : Project
  settings : Settings
  autoload : Autoload
deriving DecidableEq, Repr

namespace Context

/-- The directory of a project that a text names: a `./` in front and slashes at the end do not
count. -/
def directory (project : Project) (written : Path) : Path :=
  project.resolve (Path.dropTrailingSlashes (Path.dropDotSlash written))

/-- An autoload map with the namespaces of a table, whose directories are seen from the
project. -/
def addSpaces (project : Project) (autoload : Autoload) (spaces : Table Path) : Autoload :=
  spaces.foldl (fun found (space, written) => found.insert space (directory project written))
    autoload

/-- Reads the settings of a project. A file that is no document of settings is malformed. -/
def parseSettings (text : Text) : Except Failure Settings :=
  match Settings.parse text with
  | .error .malformedSettings => .error (.malformedFile Settings.fileName)
  | result => result

variable {m : Type → Type} [Monad m] [Disk m]

/-- The settings of a project. -/
def loadSettings (project : Project) : Action m Settings := do
  if ← ExceptT.lift (project.isPresent Settings.fileName) then
    Action.ofExcept (parseSettings (← project.read Settings.fileName))
  else return .default

/-- The namespace directories of a project's manifest. -/
def loadManifestSpaces (project : Project) : Action m (Table Path) := do
  if ← ExceptT.lift (project.isPresent Manifest.fileName) then
    let manifest ← Action.ofExcept (Manifest.parse (← project.read Manifest.fileName))
    return manifest.directories
  else return []

/-- Where the classes of a project lie. -/
def loadAutoload (project : Project) (settings : Settings) : Action m Autoload := do
  let declared ← loadManifestSpaces project
  return addSpaces project (addSpaces project .empty declared) settings.spaces

/-- All that a project says about itself. -/
def load (project : Project) : Action m Context := do
  let settings ← loadSettings project
  let autoload ← loadAutoload project settings
  return { project, settings, autoload }

end Context
end Scaffold

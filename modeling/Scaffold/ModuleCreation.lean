/-
# Creating modules

A module starts with a configuration provider in its source directory and an empty directory of
templates. A module is only created where nothing is yet.
-/

import Scaffold.Context
import Scaffold.Json
import Scaffold.ModuleLayout
import Scaffold.Template
import Scaffold.Text.LowerCase

namespace Scaffold

/-- What is asked for when a module is to be created. -/
structure ModuleRequest where
  name : Text
  /-- The directory that holds modules, as seen from the project. -/
  modulesPath : Path
deriving DecidableEq, Repr

/-- The directory that holds modules where no other is named. -/
def ModuleRequest.defaultModulesPath : Path := "src".toList

/-- A module that was created. -/
structure CreatedModule where
  layout : ModuleLayout
  /-- The file of the configuration provider. -/
  configProvider : Path
  /-- The source directory as seen from the project, with a slash at its end. -/
  autoloadDirectory : Path
deriving DecidableEq, Repr

namespace CreatedModule

/-- The line of the package manifest that binds the namespace of the module to its source
directory. -/
def autoloadEntry (created : CreatedModule) : Text :=
  Json.quote (created.layout.name ++ ['\\']) ++ ':' :: ' ' :: Json.quote created.autoloadDirectory

/-- The class of the configuration provider. -/
def providerClass (created : CreatedModule) : Text :=
  created.layout.name ++ "\\ConfigProvider".toList

/-- The directory of a new module, as seen from the project. -/
def relativeRoot (request : ModuleRequest) : Path :=
  Path.join (Path.dropDotSlash request.modulesPath) request.name

/-- The module that a request describes. -/
def plan (project : Project) (request : ModuleRequest) : Except Failure ModuleLayout :=
  ModuleLayout.parse request.name (project.resolve (relativeRoot request)) "./src".toList

/-- The file of the configuration provider of a module. -/
def providerSource (name : Text) : Text :=
  Template.render
    { space := none, className := [], factory := [], moduleName := name,
      templateSpace := name.toLowerCase } .configProvider

/-- The file that keeps the directory of templates. -/
def templatesKeeper (layout : ModuleLayout) : Path :=
  Path.join (Path.join layout.rootPath "templates".toList) ".gitkeep".toList

variable {m : Type → Type} [Monad m] [Disk m]

/-- Creates a module of a project. -/
def create (context : Context) (request : ModuleRequest) : Action m CreatedModule := do
  let project := context.project
  let layout ← Action.ofExcept (plan project request)
  if ← ExceptT.lift (project.isPresent layout.rootPath) then throw (.fileExists layout.rootPath)
  let configProvider := Path.join layout.sourceDirectory "ConfigProvider.php".toList
  project.write configProvider (providerSource layout.name)
  project.write (templatesKeeper layout) []
  return { layout, configProvider,
           autoloadDirectory := Path.join (relativeRoot request) layout.sourcePath ++ ['/'] }

/-- Creates a module of the project in a directory. -/
def createAt (root : Path) (request : ModuleRequest) : Action m CreatedModule := do
  create (← Context.load ⟨root⟩) request

end CreatedModule
end Scaffold

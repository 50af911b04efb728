/-
# Creating factories

A factory is written beside the class that it builds, under the name of the class and an ending,
and is then registered. A factory that is there already is only overwritten on demand.
-/

import Scaffold.Context
import Scaffold.Registration
import Scaffold.Template

namespace Scaffold

/-- A factory that was written. -/
structure Factory where
  /-- The class that the factory builds. -/
  target : ClassName
  name : ClassName
  path : Path
deriving DecidableEq, Repr

/-- What is asked for when a factory is to be created. -/
structure FactoryRequest where
  /-- The name of the class, as written. -/
  target : Text
  /-- Whether the factory is left out of the aggregation file. -/
  noRegister : Bool
  /-- Whether a factory that is there is overwritten. -/
  overwrite : Bool
deriving DecidableEq, Repr

/-- A factory that was created. -/
structure CreatedFactory where
  factory : Factory
  /-- What registering did, unless it was not asked for. -/
  registration : Option Registration
deriving DecidableEq, Repr

namespace Factory

/-- The file of the factory `name` for the class `target`. -/
def source (target name : ClassName) : Text :=
  Template.render
    { space := some (target.space?.getD []), className := target.shortName,
      factory := name.shortName, moduleName := [], templateSpace := [] } .factory

variable {m : Type → Type} [Monad m] [Disk m]

/-- Writes the factory of a class. -/
def generate (project : Project) (autoload : Autoload) (suffix : Text) (target : ClassName)
    (overwrite : Bool) : Action m Factory := do
  let name := target.withSuffix suffix
  let path ← Action.ofExcept (autoload.factoryPath target suffix)
  if !overwrite then
    if ← ExceptT.lift (project.isPresent path) then throw (.fileExists path)
  project.write path (source target name)
  return { target, name, path }

/-- Writes the factory of a class of a project. -/
def generateIn (context : Context) (target : ClassName) (overwrite : Bool) : Action m Factory :=
  generate context.project context.autoload context.settings.suffix target overwrite

/-- Registers a factory that was written. -/
def registerIn (context : Context) (factory : Factory) : Action m Registration :=
  ExceptT.adapt (.registrationFailed factory.path)
    (Registration.register context.project context.settings.injector factory.name factory.target)

/-- Creates the factory of a class of a project. -/
def create (context : Context) (request : FactoryRequest) : Action m CreatedFactory := do
  let target ← Action.ofExcept (ClassName.parse request.target)
  let factory ← generateIn context target request.overwrite
  if request.noRegister then return { factory, registration := none }
  else return { factory, registration := some (← registerIn context factory) }

/-- Creates the factory of a class of the project in a directory. -/
def createAt (root : Path) (request : FactoryRequest) : Action m CreatedFactory := do
  create (← Context.load ⟨root⟩) request

end Factory
end Scaffold

/-
# Running a command

A run prints lines as it goes and ends with an exit code. What was printed before a failure stays
printed. The exit code is 0 after success, 1 after a failure and 2 where the arguments are wrong.
-/

import Scaffold.CommandLine.Arguments

namespace Scaffold.CommandLine

/-- How the run of a command ended. -/
structure Outcome where
  /-- What was printed, line by line. -/
  lines : List Text
  failure : Option Failure
deriving DecidableEq, Repr

/-- How a run of the program ended. -/
inductive Ending where
  | done (outcome : Outcome)
  | stopped (stop : Stop)
deriving DecidableEq, Repr

/-- The name of the program and its version. -/
def versionLine : Text := "facgen 0.4.0".toList

/-- How the arguments are written. -/
def usageLines : List Text :=
  ["Usage: facgen [-v] [-C DIR] create-factory [--no-register] [-f] CLASS".toList,
    "       facgen [-v] [-C DIR] create-module [--modules-path DIR] NAME".toList]

namespace Outcome

/-- A run that printed some lines and then failed. -/
def failed (lines : List Text) (failure : Failure) : Outcome := ⟨lines, some failure⟩

/-- A run that printed some lines and succeeded. -/
def succeeded (lines : List Text) : Outcome := ⟨lines, none⟩

end Outcome

/-- What is printed before a factory is written. -/
def creatingFactory (target : ClassName) : Text :=
  "Creating factory for class ".toList ++ target.text ++ "...".toList

/-- What is printed before a factory is registered. -/
def registeringFactory : Text := "Registering factory with container".toList

/-- What is printed about a factory that was written. -/
def factoryLines (factory : Factory) : List Text :=
  ["Success!".toList,
    "- Created factory class ".toList ++ factory.name.text ++ ", in file ".toList ++ factory.path]

/-- What is printed about a registration. -/
def registrationLine (registration : Registration) : Text :=
  (if registration.written then "- Registered factory to container in file ".toList
    else "- Factory was already registered in file ".toList) ++ registration.path

/-- What is printed before a module is created. -/
def creatingModule (name : Text) : Text := "Creating module ".toList ++ name ++ "...".toList

/-- What is printed about a module that was created. -/
def moduleLines (created : CreatedModule) : List Text :=
  ["Success!".toList,
    "- Created module ".toList ++ created.layout.name ++ " in ".toList ++ created.layout.rootPath,
    ("- Add this entry to \"autoload\".\"psr-4\" in composer.json, "
      ++ "then run composer dump-autoload:").toList,
    "    ".toList ++ created.autoloadEntry,
    "- Add ".toList ++ created.providerClass
      ++ "::class to the application's config aggregator".toList]

variable {m : Type → Type} [Monad m] [Disk m]

/-- Reads the name of a class, and then all that the project in a directory says about itself. -/
def prepare (root : Path) (request : FactoryRequest) : Action m (ClassName × Context) := do
  let target ← Action.ofExcept (ClassName.parse request.target)
  return (target, ← Context.load ⟨root⟩)

/-- Creates a factory in the project in a directory. -/
def runCreateFactory (root : Path) (request : FactoryRequest) : m Outcome := do
  match ← (prepare root request).run with
  | .error failure => return .failed [] failure
  | .ok (target, context) =>
    let started := [creatingFactory target]
    match ← (Factory.generateIn context target request.overwrite).run with
    | .error failure => return .failed started failure
    | .ok factory =>
      if request.noRegister then return .succeeded (started ++ factoryLines factory)
      else
        let registering := started ++ [registeringFactory]
        match ← (Factory.registerIn context factory).run with
        | .error failure => return .failed registering failure
        | .ok registration =>
          return .succeeded (registering ++ factoryLines factory ++ [registrationLine registration])

/-- Creates a module in the project in a directory. -/
def runCreateModule (root : Path) (request : ModuleRequest) : m Outcome := do
  let started := [creatingModule request.name]
  match ← (CreatedModule.createAt root request).run with
  | .error failure => return .failed started failure
  | .ok created => return .succeeded (started ++ moduleLines created)

/-- The directory of the project: the working directory, or the one that is named. -/
def projectRoot (named : Option Path) : Action m Path := do
  let current ← ExceptT.lift (Disk.workingDirectory : m Path)
  let root := (named.map (Path.join current)).getD current
  if ← ExceptT.lift (Disk.isDirectory root) then return root else throw (.notFound root)

/-- Does what is asked for. -/
def runInvocation (invocation : Invocation) : m Outcome := do
  match ← (projectRoot invocation.projectDir).run with
  | .error failure => return .failed [] failure
  | .ok root =>
    match invocation.command with
    | .createFactory request => runCreateFactory root request
    | .createModule request => runCreateModule root request

/-- Runs the program with the given arguments. -/
def run (arguments : List Text) : m Ending := do
  match Invocation.read arguments with
  | .error stop => return .stopped stop
  | .ok invocation => return .done (← runInvocation invocation)

namespace Ending

/-- What the program prints, line by line. -/
def printed : Ending → List Text
  | .done outcome => outcome.lines
  | .stopped .version => [versionLine]
  | .stopped .help => usageLines
  | .stopped .usage => []

/-- Why the program failed, if it did while it worked on a project. -/
def failure? : Ending → Option Failure
  | .done outcome => outcome.failure
  | .stopped _ => none

/-- The exit code of the program. -/
def exitCode : Ending → Nat
  | .done outcome => if outcome.failure.isSome then 1 else 0
  | .stopped .usage => 2
  | .stopped _ => 0

end Ending
end Scaffold.CommandLine

/-
# Projects

A project is a directory, and everything the library reads or writes lies in it. A path that leads
out of the project, walked by its text alone, is refused before the disk is touched.
-/

import Scaffold.Disk
import Scaffold.Failure

namespace Scaffold

/-- Something done with a disk that may fail. What it changed before it fails stays changed. -/
abbrev Action (m : Type → Type) (α : Type) := ExceptT Failure m α

/-- A result as an action that leaves the disk alone. -/
def Action.ofExcept {m : Type → Type} [Monad m] {α : Type} (result : Except Failure α) :
    Action m α :=
  ExceptT.mk (pure result)

/-- A project, by its directory. -/
structure Project where
  root : Path
deriving DecidableEq, Repr

namespace Project

/-- A path as seen from the project. -/
def resolve (project : Project) (path : Path) : Path := Path.join project.root path

/-- Whether a path, as seen from the project, leads to the project's directory or below it. -/
def confines (project : Project) (path : Path) : Bool :=
  (Path.location project.root).covers (Path.location (project.resolve path))

/-- The path of a file of the project, as the disk is to see it. -/
def confine (project : Project) (path : Path) : Except Failure Path :=
  let full := project.resolve path
  if project.confines full then .ok full else .error (.pathTraversal full)

/-- The directory in which a file is to be written. -/
def directoryOf (full : Path) : Except Failure Path :=
  match Path.parent? full with
  | some directory => .ok directory
  | none => .error (.noParentDirectory full)

variable {m : Type → Type} [Monad m] [Disk m]

/-- Whether there is anything at a path of the project. -/
def isPresent (project : Project) (path : Path) : m Bool :=
  match project.confine path with
  | .ok full => Disk.isPresent full
  | .error _ => pure false

/-- The text of a file of the project. -/
def read (project : Project) (path : Path) : Action m Text := do
  let full ← Action.ofExcept (project.confine path)
  match ← ExceptT.lift (Disk.read? full) with
  | some text => return text
  | none => throw .disk

/-- Puts a text in the place of a file of the project, or makes the file and the directories above
it. -/
def write (project : Project) (path : Path) (text : Text) : Action m Unit := do
  let full ← Action.ofExcept (project.confine path)
  let directory ← Action.ofExcept (directoryOf full)
  if !(← ExceptT.lift (Disk.createDirectories directory)) then throw .disk
  if !(← ExceptT.lift (Disk.replace full text)) then throw .disk

end Project
end Scaffold

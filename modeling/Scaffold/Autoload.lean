/-
# From class names to files

An autoload map binds namespaces to directories. The file of a class lies in the directory of the
longest namespace that covers the class: the segments of the class name after that namespace are
directories, and the last one names the file. The empty namespace covers every class.
-/

import Scaffold.ClassName
import Scaffold.Path

namespace Scaffold

/-- A namespace and the directory that holds its classes. -/
structure Mapping where
  /-- Empty, or a namespace with one backslash at its end. -/
  space : Text
  directory : Path
deriving DecidableEq, Repr

/-- The namespace mappings of a project; no namespace is mapped twice. -/
structure Autoload where
  mappings : List Mapping
deriving DecidableEq, Repr

namespace Autoload

/-- No mapping at all. -/
def empty : Autoload := ⟨[]⟩

/-- Whether no namespace is bound to a directory. -/
def isEmpty (autoload : Autoload) : Bool := autoload.mappings.isEmpty

/-- A namespace without backslashes around it, but for one at its end. -/
def normalize (space : Text) : Text :=
  match Text.trimBoth (· == '\\') space with
  | [] => []
  | trimmed => trimmed ++ ['\\']

/-- The directory that a normalized namespace is bound to. -/
def find? (autoload : Autoload) (space : Text) : Option Path :=
  (autoload.mappings.find? (·.space == space)).map Mapping.directory

/-- The directory that exactly this namespace is bound to. -/
def directory? (autoload : Autoload) (space : Text) : Option Path :=
  autoload.find? (normalize space)

/-- Binds a normalized namespace in a list of mappings: in place if it is bound there. -/
def bind (space : Text) (directory : Path) : List Mapping → List Mapping
  | [] => [⟨space, directory⟩]
  | mapping :: rest =>
    if mapping.space = space then ⟨space, directory⟩ :: rest
    else mapping :: bind space directory rest

/-- Binds a namespace to a directory. -/
def insert (autoload : Autoload) (space : Text) (directory : Path) : Autoload :=
  ⟨bind (normalize space) directory autoload.mappings⟩

/-- Binds a namespace to a directory. Gives the directory it was bound to before, too. -/
def getThenInsert? (autoload : Autoload) (space : Text) (directory : Path) :
    Option Path × Autoload :=
  (autoload.directory? space, autoload.insert space directory)

/-- Whether a mapping covers a class. -/
def Mapping.covers (mapping : Mapping) (name : ClassName) : Bool :=
  mapping.space.isPrefixOf name.text

/-- The longer of two mappings by namespace. -/
def longer (best : Option Mapping) (mapping : Mapping) : Option Mapping :=
  match best with
  | none => some mapping
  | some found => if found.space.length ≤ mapping.space.length then some mapping else some found

/-- The mapping with the longest namespace that covers a class. -/
def covering? (autoload : Autoload) (name : ClassName) : Option Mapping :=
  (autoload.mappings.filter (Mapping.covers · name)).foldl longer none

/-- The file of a class that a mapping covers. -/
def Mapping.file (mapping : Mapping) (name : ClassName) : Path :=
  let below := (name.text.drop mapping.space.length).splitOn '\\'
  Path.withExtension "php".toList (below.foldl Path.join mapping.directory)

/-- The file that holds a class. -/
def resolve (autoload : Autoload) (name : ClassName) : Except Failure Path :=
  match autoload.covering? name with
  | none => .error (.unresolvablePath name.text)
  | some mapping => .ok (Mapping.file mapping name)

/-- The file that holds the factory of a class, whose name is the class name and `suffix`. -/
def factoryPath (autoload : Autoload) (name : ClassName) (suffix : Text) : Except Failure Path :=
  autoload.resolve (name.withSuffix suffix)

end Autoload
end Scaffold

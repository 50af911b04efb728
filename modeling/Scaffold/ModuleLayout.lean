/-
# Where a module lies

A module is a directory named after it, with a source directory inside.
-/

import Scaffold.ClassName
import Scaffold.Path

namespace Scaffold

/-- The name of a module and its directories. -/
structure ModuleLayout where
  name : Text
  rootPath : Path
  /-- The source directory, as seen from the module's own directory. -/
  sourcePath : Path
deriving DecidableEq, Repr

namespace ModuleLayout

/-- A module with the given directories; a single `./` in front of the source directory is
dropped. -/
def of (name : Text) (rootPath sourcePath : Path) : ModuleLayout :=
  ⟨name, rootPath, Path.dropDotSlash sourcePath⟩

/-- A module whose name must be an identifier. -/
def parse (name : Text) (rootPath sourcePath : Path) : Except Failure ModuleLayout :=
  if isIdentifier name then .ok (of name rootPath sourcePath) else .error (.invalidModuleName name)

/-- The source directory. -/
def sourceDirectory (layout : ModuleLayout) : Path :=
  if layout.sourcePath.isEmpty then layout.rootPath
  else Path.join layout.rootPath layout.sourcePath

end ModuleLayout
end Scaffold

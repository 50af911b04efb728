/-
# The package manifest of a project

The manifest binds namespaces to directories in two places; the first place comes before the
second. A namespace may have several directories, of which the first counts.
-/

import Scaffold.Failure
import Scaffold.Json
import Scaffold.Path
import Scaffold.Text.Table

namespace Scaffold

/-- The namespace directories that a package manifest declares. -/
structure Manifest where
  autoload : Table (List Path)
  autoloadDev : Table (List Path)
deriving DecidableEq, Repr

namespace Manifest

/-- The name of the manifest file. -/
def fileName : Path := "composer.json".toList

/-- The text of a JSON string. -/
def text? : Json → Option Text
  | .string value => value
  | _ => none

/-- One directory, or a list of directories. -/
def directories? : Json → Option (List Path)
  | .string value => value.map fun directory => [directory]
  | .array elements => elements.mapM text?
  | _ => none

/-- The directories of namespaces. -/
def spaces? : Json → Option (Table (List Path))
  | .object members =>
    (members.mapM fun (member : Option Text × Json) => do
      return (← member.1, ← directories? member.2)).map Table.ofEntries
  | _ => none

/-- One of the two places of the manifest. -/
def place? (json : Json) : Option (Table (List Path)) := do
  match ← json.record? ["psr-4".toList] with
  | [some spaces] => spaces? spaces
  | _ => return []

/-- The manifest of a JSON value. -/
def ofJson? (json : Json) : Option Manifest := do
  match ← json.record? ["autoload".toList, "autoload-dev".toList] with
  | [autoload, autoloadDev] =>
    return { autoload := ← (autoload.mapM place?).map (·.getD []),
             autoloadDev := ← (autoloadDev.mapM place?).map (·.getD []) }
  | _ => none

/-- Reads a manifest. -/
def parse (text : Text) : Except Failure Manifest :=
  match (Json.read? text).bind ofJson? with
  | some manifest => .ok manifest
  | none => .error (.malformedFile fileName)

/-- The directory of each namespace: its first one in the first place, or else in the second,
without slashes at its end. A namespace with no directory is not bound. -/
def directories (manifest : Manifest) : Table Path :=
  (manifest.autoload ++ manifest.autoloadDev).foldl (fun found (space, candidates) =>
    if found.any (·.1 == space) then found
    else
      match candidates with
      | [] => found
      | directory :: _ => Table.insert space (Path.dropTrailingSlashes directory) found) []

end Manifest
end Scaffold

/-
# Settings of a project

A project may have a settings file. It sets the ending of factory names, the aggregation file in
which factories are registered, and namespaces beyond those of the package manifest. Every field
has a default, and an unknown field is an error.
-/

import Scaffold.ClassName
import Scaffold.Path
import Scaffold.Text.Table
import Scaffold.Toml.Document

namespace Scaffold

/-- Where factories are registered. -/
structure InjectorSettings where
  /-- The aggregation file, as seen from the project. -/
  configFile : Path
  /-- Whether a missing aggregation file is started empty. -/
  createMissing : Bool
deriving DecidableEq, Repr

/-- The settings of a project. -/
structure Settings where
  /-- What the name of a factory has after the name of its class. -/
  suffix : Text
  injector : InjectorSettings
  /-- Directories of namespaces, as seen from the project. -/
  spaces : Table Path
deriving DecidableEq, Repr

/-- The settings where nothing is set. -/
def InjectorSettings.default : InjectorSettings where
  configFile := "config/autoload/dependencies.global.php".toList
  createMissing := true

namespace Settings

/-- The name of the settings file. -/
def fileName : Path := "facgen.toml".toList

/-- The settings where nothing is set. -/
def default : Settings where
  suffix := "Factory".toList
  injector := .default
  spaces := []

/-- The name under which the parts of a date stand where a table is expected. -/
def dateTimeKey : Text := "$__toml_private_datetime".toList

/-- The text that a value is, if it is one. -/
def text? : Toml → Option Text
  | .string value => some value
  | _ => none

/-- The truth value that a value is, if it is one. -/
def bool? : Toml → Option Bool
  | .boolean value => some value
  | _ => none

/-- The values of the named fields of a record. A record is a table with no other fields, or a
list that starts with the values in the order of the names. -/
def record? (names : List Text) : Toml → Option (List (Option Toml))
  | .table _ entries =>
    if entries.all fun entry => names.contains entry.1 then
      some (names.map fun name => entries.lookup name)
    else none
  | .array elements => some ((List.range names.length).map fun i => elements[i]?)
  | .tables all =>
    some ((List.range names.length).map fun i => (all[i]?).map (Toml.table .header))
  | _ => none

/-- The value of a field that may be left out. -/
def field? {α : Type} (read : Toml → Option α) (default : α) : Option Toml → Option α
  | none => some default
  | some value => read value

/-- The ending of factory names. -/
def suffix? (toml : Toml) : Option Text := do
  match ← record? ["suffix".toList] toml with
  | [suffix] => field? text? default.suffix suffix
  | _ => none

/-- Where factories are registered. -/
def injector? (toml : Toml) : Option InjectorSettings := do
  match ← record? ["config_file".toList, "create_missing".toList] toml with
  | [configFile, createMissing] =>
    return { configFile := ← field? text? default.injector.configFile configFile,
             createMissing := ← field? bool? default.injector.createMissing createMissing }
  | _ => none

/-- Directories of namespaces. -/
def spaces? : Toml → Option (Table Path)
  | .table _ entries =>
    (entries.mapM fun (entry : Text × Toml) => do
      return (entry.1, ← text? entry.2)).map Table.ofEntries
  | .dateTime shown => some [(dateTimeKey, shown)]
  | _ => none

/-- The settings of a document. -/
def ofEntries? (entries : Toml.Entries) : Option Settings := do
  let names := ["factory".toList, "injector".toList, "namespaces".toList]
  match ← record? names (.table .header entries) with
  | [factory, injector, spaces] =>
    return { suffix := ← field? suffix? default.suffix factory,
             injector := ← field? injector? default.injector injector,
             spaces := ← field? spaces? default.spaces spaces }
  | _ => none

/-- Whether the settings make sense. -/
def check (settings : Settings) : Except Failure Settings :=
  if ¬isIdentifier settings.suffix then .error (.settings (.invalidSuffix settings.suffix))
  else if (Text.trim settings.injector.configFile).isEmpty then .error (.settings .emptyConfigFile)
  else .ok settings

/-- Reads settings. -/
def parse (text : Text) : Except Failure Settings :=
  match (Toml.read? text).bind ofEntries? with
  | none => .error .malformedSettings
  | some settings => settings.check

end Settings
end Scaffold

/-
# Why a command fails

Every operation of the library that can fail gives one of these causes. `kind` is a few words for
the sort of failure and `message` its full wording.
-/

import Scaffold.Config.Error

namespace Scaffold

/-- What is wrong with settings that could be read. -/
inductive SettingsFault where
  /-- The ending for factory names is not an identifier. -/
  | invalidSuffix (suffix : Text)
  /-- No aggregation file is named. -/
  | emptyConfigFile
deriving DecidableEq, Repr

/-- Why an operation fails. -/
inductive Failure where
  /-- A file could not be read or written. -/
  | disk
  /-- A section path written with dots has an empty key. -/
  | invalidSectionPath (text : Text)
  /-- A path to write to is no path of a file. -/
  | noParentDirectory (path : Text)
  /-- The settings are not a document of their format, or not one of settings. -/
  | malformedSettings
  | settings (fault : SettingsFault)
  /-- A file of the project cannot be read for what it should hold. -/
  | malformedFile (name : Text)
  | notFound (path : Text)
  | document (cause : Config.DocumentError)
  /-- A configuration file cannot be read or edited. -/
  | configFile (path : Text) (cause : Config.DocumentError)
  /-- No namespace mapping covers a class. -/
  | unresolvablePath (className : Text)
  | fileExists (path : Text)
  /-- The aggregation file is missing and may not be created. -/
  | configFileNotFound (path : Text)
  | invalidClassName (written : Text)
  | invalidModuleName (written : Text)
  | unknownTemplate (name : Text)
  /-- A path leads out of the project. -/
  | pathTraversal (path : Text)
  /-- The factory was written, but it could not be registered. -/
  | registrationFailed (factoryPath : Text) (cause : Failure)
deriving DecidableEq, Repr

/-- The wording of what is wrong with the settings. -/
def SettingsFault.message : SettingsFault → String
  | .invalidSuffix suffix =>
    s!"factory.suffix '{String.ofList suffix}' is not a valid class name suffix"
  | .emptyConfigFile => "injector.config_file must not be empty"

namespace Failure

/-- A few words for the sort of failure. -/
def kind : Failure → String
  | .disk => "io"
  | .invalidSectionPath _ | .noParentDirectory _ | .malformedSettings | .settings _ =>
    "configuration"
  | .malformedFile _ => "parse error"
  | .notFound _ => "not found"
  | .document cause | .configFile _ cause => cause.kind
  | .unresolvablePath _ => "unresolvable path"
  | .fileExists _ => "file exists"
  | .configFileNotFound _ => "config file not found"
  | .invalidClassName _ | .invalidModuleName _ => "invalid name"
  | .unknownTemplate _ => "template"
  | .pathTraversal _ => "path traversal"
  | .registrationFailed .. => "registration failed"

/-- The full wording of a failure. -/
def message : Failure → String
  | .disk => "input or output failed"
  | .invalidSectionPath text => s!"Invalid section path '{String.ofList text}'"
  | .noParentDirectory path => s!"No parent directory for {String.ofList path}"
  | .malformedSettings => "the settings are malformed"
  | .settings fault => fault.message
  | .malformedFile name => s!"Failed to parse {String.ofList name}"
  | .notFound path => s!"File not found: {String.ofList path}"
  | .document cause => cause.message
  | .configFile path cause => s!"{String.ofList path}: {cause.message}"
  | .unresolvablePath className =>
    s!"No autoload mapping covers class '{String.ofList className}'. "
      ++ "Add a PSR-4 entry to composer.json or a [namespaces] entry to facgen.toml."
  | .fileExists path => s!"File already exists: {String.ofList path} (use --force to overwrite)"
  | .configFileNotFound path =>
    s!"Dependency configuration file not found: {String.ofList path}"
  | .invalidClassName written =>
    s!"Invalid class name '{String.ofList written}': expected Vendor\\Namespace\\ClassName"
  | .invalidModuleName written =>
    s!"Invalid module name '{String.ofList written}': must be a single PHP identifier"
  | .unknownTemplate name => s!"Template error: no template '{String.ofList name}'"
  | .pathTraversal path => s!"Path escapes the project root: {String.ofList path}"
  | .registrationFailed factoryPath cause =>
    s!"Factory class was created at {String.ofList factoryPath} but registering it failed: "
      ++ cause.message

end Failure
end Scaffold

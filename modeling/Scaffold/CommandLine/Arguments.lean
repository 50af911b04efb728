/-
# Arguments

The command line names a command and gives it options and texts of its own. An option is known by
a long name and may have a letter; the letters of several options can be written together. The
value of an option is attached to it or is the next argument, which then does not start with a
dash. No option may stand twice. After `--` every argument is a text of its own. The options that
all commands share may stand before the command too, where the ones after it win.
-/

import Scaffold.Factory
import Scaffold.ModuleCreation

namespace Scaffold.CommandLine

/-- What an option is. -/
structure OptionSpec where
  name : Text
  letter : Option Char
  takesValue : Bool
  /-- Whether its value may be empty. -/
  allowsEmpty : Bool
deriving DecidableEq, Repr

/-- What the arguments are for. -/
inductive Level where
  /-- The arguments before the command. -/
  | top
  | createFactory
  | createModule
deriving DecidableEq, Repr

/-- More lines in the log. -/
def verbose : OptionSpec := ⟨"verbose".toList, some 'v', false, true⟩
/-- The directory of the project, in place of the working directory. -/
def projectDir : OptionSpec := ⟨"project-dir".toList, some 'C', true, false⟩
/-- Prints how the command is used. -/
def help : OptionSpec := ⟨"help".toList, some 'h', false, true⟩
/-- Prints the version. -/
def version : OptionSpec := ⟨"version".toList, some 'V', false, true⟩
/-- The factory is not registered. -/
def noRegister : OptionSpec := ⟨"no-register".toList, none, false, true⟩
/-- The factory may replace a file. -/
def force : OptionSpec := ⟨"force".toList, some 'f', false, true⟩
/-- The directory of the modules. -/
def modulesPath : OptionSpec := ⟨"modules-path".toList, none, true, true⟩

/-- The options of a level. -/
def Level.options : Level → List OptionSpec
  | .top => [verbose, projectDir, help, version]
  | .createFactory => [verbose, projectDir, help, noRegister, force]
  | .createModule => [verbose, projectDir, help, modulesPath]

/-- Why the arguments do not say what to do with a project. -/
inductive Stop where
  /-- The arguments are wrong. -/
  | usage
  /-- The version is asked for. -/
  | version
  /-- An explanation is asked for. -/
  | help
deriving DecidableEq, Repr

/-- What the arguments of a level say. -/
structure Given where
  /-- The options, each with its value; the value of an option that takes none is empty. -/
  options : List (OptionSpec × Text)
  texts : List Text
deriving DecidableEq, Repr

namespace Given

/-- Nothing given yet. -/
def nothing : Given := ⟨[], []⟩

/-- The value of an option. -/
def value? (given : Given) (option : OptionSpec) : Option Text := given.options.lookup option

/-- Whether an option is given. -/
def has (given : Given) (option : OptionSpec) : Bool := (given.value? option).isSome

/-- One more option. -/
def add (given : Given) (option : OptionSpec) (value : Text) : Except Stop Given :=
  if option = help then .error .help
  else if option = version then .error .version
  else if given.has option then .error .usage
  else if value.isEmpty ∧ ¬option.allowsEmpty then .error .usage
  else .ok { given with options := given.options ++ [(option, value)] }

/-- One more text. -/
def addText (given : Given) (text : Text) : Given := { given with texts := given.texts ++ [text] }

end Given

/-- What is read of an argument: it is complete, or it is an option whose value is to come. -/
abbrev Step := Given × Option OptionSpec

/-- An argument that starts with two dashes, given without them. -/
def readLong (level : Level) (given : Given) (argument : Text) : Except Stop Step :=
  let name := argument.takeWhile (· != '=')
  let attached := (argument.drop name.length).tail?
  match level.options.find? (·.name == name), attached with
  | none, _ => .error .usage
  | some option, none =>
    if option.takesValue then
      if given.has option then .error .usage else .ok (given, some option)
    else (given.add option []).map (·, none)
  | some option, some value =>
    if option.takesValue then (given.add option value).map (·, none) else .error .usage

/-- The letters of an argument that starts with one dash. The rest of the argument after the
letter of an option with a value is that value, and an equals sign before it does not count. -/
def readLetters (level : Level) (given : Given) : Text → Except Stop Step
  | [] => .ok (given, none)
  | letter :: rest =>
    match level.options.find? (·.letter == some letter) with
    | none => .error .usage
    | some option =>
      if option.takesValue then
        match rest with
        | [] => if given.has option then .error .usage else .ok (given, some option)
        | '=' :: value => (given.add option value).map (·, none)
        | value => (given.add option value).map (·, none)
      else
        match given.add option [] with
        | .error stop => .error stop
        | .ok more => readLetters level more rest

/-- Whether an argument is written as an option. -/
def looksLikeOption (argument : Text) : Bool :=
  argument.head? == some '-' && argument.length != 1

/-- An argument that is written as an option. -/
def readOption (level : Level) (given : Given) (argument : Text) : Except Stop Step :=
  match Text.after? ['-', '-'] argument with
  | some long => readLong level given long
  | none => readLetters level given argument.tail

/-- How many texts of its own a command takes. -/
def textLimit : Nat := 1

/-- The arguments of a command; `waiting` is the option whose value comes next. -/
def readCommand (level : Level) (given : Given) (waiting : Option OptionSpec) :
    List Text → Except Stop Given
  | [] => if waiting.isSome then .error .usage else .ok given
  | argument :: rest =>
    if looksLikeOption argument then
      if waiting.isSome then .error .usage
      else if argument = ['-', '-'] then
        if given.texts.length + rest.length ≤ textLimit then
          .ok (rest.foldl Given.addText given)
        else .error .usage
      else
        match readOption level given argument with
        | .error stop => .error stop
        | .ok (more, next) => readCommand level more next rest
    else
      match waiting with
      | some option =>
        match given.add option argument with
        | .error stop => .error stop
        | .ok more => readCommand level more none rest
      | none =>
        if given.texts.length < textLimit then readCommand level (given.addText argument) none rest
        else .error .usage

/-- The command of a name. -/
def commandOf? (name : Text) : Option Level :=
  if name = "create-factory".toList ∨ name = "factory:create".toList then some .createFactory
  else if name = "create-module".toList ∨ name = "module:create".toList then some .createModule
  else none

/-- What `help` with these arguments asks for: an explanation of everything, or of one command. -/
def helpOn : List Text → Stop
  | [] => .help
  | [name] => if (commandOf? name).isSome ∨ name = "help".toList then .help else .usage
  | _ => .usage

/-- The arguments before the command, the command, and what is given to it. -/
def readTop (given : Given) (waiting : Option OptionSpec) :
    List Text → Except Stop (Given × Level × Given)
  | [] => .error .usage
  | argument :: rest =>
    if looksLikeOption argument then
      if waiting.isSome ∨ argument = ['-', '-'] then .error .usage
      else
        match readOption .top given argument with
        | .error stop => .error stop
        | .ok (more, next) => readTop more next rest
    else
      match waiting with
      | some option =>
        match given.add option argument with
        | .error stop => .error stop
        | .ok more => readTop more none rest
      | none =>
        match commandOf? argument with
        | some level => (readCommand level .nothing none rest).map (given, level, ·)
        | none => .error (if argument = "help".toList then helpOn rest else .usage)

/-- What is to be done. -/
inductive Command where
  | createFactory (request : FactoryRequest)
  | createModule (request : ModuleRequest)
deriving DecidableEq, Repr

/-- What is to be done, and where. -/
structure Invocation where
  /-- The directory of the project, if one is named. -/
  projectDir : Option Path
  command : Command
deriving DecidableEq, Repr

/-- The command that the arguments of a level describe; each takes one text. -/
def commandOf (level : Level) (given : Given) : Except Stop Command :=
  match level, given.texts with
  | .createFactory, [target] =>
    .ok (.createFactory
      { target, noRegister := given.has noRegister, overwrite := given.has force })
  | .createModule, [name] =>
    .ok (.createModule
      { name,
        modulesPath := (given.value? modulesPath).getD ModuleRequest.defaultModulesPath })
  | _, _ => .error .usage

/-- Reads the arguments of the command line. -/
def Invocation.read (arguments : List Text) : Except Stop Invocation :=
  match readTop .nothing none arguments with
  | .error stop => .error stop
  | .ok (shared, level, given) =>
    let named (given : Given) : Option Path := given.value? CommandLine.projectDir
    (commandOf level given).map fun command =>
      { projectDir := (named given).or (named shared), command }

end Scaffold.CommandLine

/-
# Paths

A path is a text whose segments are separated by slashes. Empty segments and segments of one dot
lead nowhere. `Path.location` walks a path by its text alone: a segment of two dots goes back to
the parent, and the parent of the top is the top.
-/

import Scaffold.Text.Basic

namespace Scaffold

/-- A path, as written. -/
abbrev Path := Text

/-- Where a path leads when it is walked by its text alone. -/
structure Location where
  absolute : Bool
  /-- The names from the top down. -/
  names : List Text
deriving DecidableEq, Repr

namespace Location

/-- One segment further: an empty segment and a single dot stay, two dots go back. -/
def step (names : List Text) (segment : Text) : List Text :=
  if segment = [] ∨ segment = ['.'] then names
  else if segment = ['.', '.'] then names.dropLast
  else names ++ [segment]

/-- Whether `other` is `base` or lies below it. Everything lies below a relative location without
names. -/
def covers (base other : Location) : Bool :=
  (!base.absolute && base.names.isEmpty)
    || (base.absolute == other.absolute && base.names.isPrefixOf other.names)

end Location

namespace Path

/-- Whether the path starts at the root of the file tree. -/
def isAbsolute (path : Path) : Bool := path.head? == some '/'

/-- The texts between the slashes. -/
def segments (path : Path) : List Text := path.splitOn '/'

/-- Whether a segment names nothing: it is empty or a single dot. -/
def isIdle (segment : Text) : Bool := segment.isEmpty || segment == ['.']

/-- The path `other` as seen from `base`: an absolute path is itself, and any other is appended
after a slash. -/
def join (base other : Path) : Path :=
  if isAbsolute other then other
  else if base.isEmpty || base.getLast? == some '/' then base ++ other
  else base ++ '/' :: other

/-- Where the path leads by its text alone. -/
def location (path : Path) : Location :=
  ⟨isAbsolute path, (segments path).foldl Location.step []⟩

/-- The text up to the last name of the path and that name; nothing if the path ends in two dots
or names nothing. -/
def lastName? (path : Path) : Option (Path × Text) :=
  match (segments path).reverse.dropWhile isIdle with
  | [] => none
  | name :: before =>
    if name = ['.', '.'] then none
    else some (['/'].intercalate (before.reverse ++ [[]]), name)

/-- A file name without its extension. The dot at the start of a name starts no extension. -/
def stem (name : Text) : Text :=
  match Text.beforeLast? '.' name with
  | none | some [] => name
  | some before => before

/-- The path with the extension of its last name replaced, or added where there is none. -/
def withExtension (extension : Text) (path : Path) : Path :=
  match lastName? path with
  | none => path
  | some (before, name) => before ++ stem name ++ '.' :: extension

/-- Whether the path is relative and its first segment is a single dot. -/
def startsAtDot (path : Path) : Bool := (segments path).head? == some ['.']

/-- The path without its last name or pair of dots; nothing for the top and for the empty path. -/
def parent? (path : Path) : Option Path :=
  match (segments path).reverse.dropWhile isIdle with
  | [] => if startsAtDot path then some [] else none
  | _ :: before =>
    match before.dropWhile isIdle with
    | [] =>
      if isAbsolute path then some ['/'] else if startsAtDot path then some ['.'] else some []
    | names => some (['/'].intercalate names.reverse)

/-- A path without a single leading `./`. -/
def dropDotSlash (path : Path) : Path := (Text.after? ['.', '/'] path).getD path

/-- A path without the slashes at its end. -/
def dropTrailingSlashes (path : Path) : Path := Text.dropEndWhile (· == '/') path

end Path
end Scaffold

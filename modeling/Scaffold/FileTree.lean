/-
# File trees

A file tree is a disk as a value: what stands at each location, where a location lists names from
the top directory down. A path is followed name by name, and every step on the way must start from
a directory that is there. So, unlike `Path.location`, two dots after a missing name lead nowhere,
and nothing follows a file, not even a slash.
-/

import Scaffold.Disk

namespace Scaffold

/-- What stands at a location. -/
inductive Node where
  | directory
  | file (text : Text)
  /-- A file whose bytes are no text. -/
  | binary
deriving DecidableEq, Repr

/-- Why following a path or creating a directory fails. -/
inductive Obstacle where
  /-- A name on the way stands for nothing. -/
  | missing
  /-- Something is there already. -/
  | occupied
  /-- The way leads through a file, or a name cannot exist. -/
  | refused
deriving DecidableEq, Repr

/-- Files and directories. The top directory is always there and is not listed. -/
structure FileTree where
  nodes : List (List Text × Node)
  workingDirectory : List Text
deriving DecidableEq, Repr

namespace FileTree

/-- The number of bytes of a text in UTF-8. -/
def byteLength (text : Text) : Nat := text.foldr (fun c size => c.utf8Size + size) 0

/-- The longest name, in bytes. -/
def nameLimit : Nat := 255

/-- The longest path, in bytes. -/
def pathLimit : Nat := 4095

/-- What stands at a location. -/
def node? (tree : FileTree) (place : List Text) : Option Node :=
  if place.isEmpty then some .directory else tree.nodes.lookup place

/-- The tree with a node put at a location. -/
def setNode (tree : FileTree) (place : List Text) (node : Node) : FileTree :=
  { tree with
    nodes :=
      if tree.nodes.any (·.1 == place) then
        tree.nodes.map fun entry => if entry.1 == place then (place, node) else entry
      else tree.nodes ++ [(place, node)] }

/-! ### Following paths -/

/-- One segment further from a location where something stands. -/
def enter (tree : FileTree) (place : List Text) (segment : Text) :
    Except Obstacle (List Text) :=
  if tree.node? place ≠ some .directory then .error .refused
  else if Path.isIdle segment then .ok place
  else if segment = ['.', '.'] then .ok place.dropLast
  else if nameLimit < byteLength segment then .error .refused
  else if (tree.node? (place ++ [segment])).isSome then .ok (place ++ [segment])
  else .error .missing

/-- Where a path starts. -/
def start (tree : FileTree) (path : Path) : List Text :=
  if Path.isAbsolute path then [] else tree.workingDirectory

/-- Whether a path can be followed at all: it is short enough and has no null character. -/
def isUsable (path : Path) : Bool := byteLength path ≤ pathLimit && !path.contains '\x00'

/-- The location that a path leads to. -/
def follow (tree : FileTree) (path : Path) : Except Obstacle (List Text) :=
  if path.isEmpty then .error .missing
  else if !isUsable path then .error .refused
  else (Path.segments path).foldlM tree.enter (tree.start path)

/-- What a path leads to. -/
def nodeAt? (tree : FileTree) (path : Path) : Option Node :=
  match tree.follow path with
  | .ok place => tree.node? place
  | .error _ => none

/-- Whether a path leads to a directory. -/
def isDirectory (tree : FileTree) (path : Path) : Bool := tree.nodeAt? path == some .directory

/-- The location that the last segment of a path names in the directory that the others lead to.
Dots name nothing new. -/
def entryOf (tree : FileTree) (path : Path) : Except Obstacle (List Text) :=
  if path.isEmpty then .error .missing
  else if !isUsable path then .error .refused
  else
    let segments := Path.segments path
    let name := segments.getLastD []
    match segments.dropLast.foldlM tree.enter (tree.start path) with
    | .error obstacle => .error obstacle
    | .ok place =>
      if tree.node? place ≠ some .directory then .error .refused
      else if Path.isIdle name ∨ name = ['.', '.'] then .error .occupied
      else if nameLimit < byteLength name then .error .refused
      else .ok (place ++ [name])

/-! ### Changes -/

/-- Creates one directory. -/
def createDirectory (tree : FileTree) (path : Path) : Except Obstacle FileTree :=
  if path.all (· == '/') then .error (if path.isEmpty then .missing else .occupied)
  else
    match tree.entryOf (Path.dropTrailingSlashes path) with
    | .error obstacle => .error obstacle
    | .ok place =>
      if (tree.node? place).isSome then .error .occupied
      else .ok (tree.setNode place .directory)

/-- Creates a directory and those above it where they are missing, in at most `fuel` steps up. -/
def createWithin : Nat → FileTree → Path → FileTree × Bool
  | 0, tree, _ => (tree, false)
  | fuel + 1, tree, path =>
    if path.isEmpty then (tree, true)
    else
      match tree.createDirectory path with
      | .ok changed => (changed, true)
      | .error .missing =>
        match Path.parent? path with
        | none => (tree, false)
        | some above =>
          match createWithin fuel tree above with
          | (grown, false) => (grown, false)
          | (grown, true) =>
            match grown.createDirectory path with
            | .ok changed => (changed, true)
            | .error _ => (grown, grown.isDirectory path)
      | .error _ => (tree, tree.isDirectory path)

/-- Creates a directory and those above it where they are missing; says whether the directory is
there now. -/
def createDirectories (tree : FileTree) (path : Path) : FileTree × Bool :=
  createWithin (path.length + 1) tree path

/-- The text of a file. -/
def read? (tree : FileTree) (path : Path) : Option Text :=
  match tree.nodeAt? path with
  | some (.file text) => some text
  | _ => none

/-- Puts a text in the place of a file, or makes the file; says whether that was done. A directory
is not replaced. -/
def replace (tree : FileTree) (path : Path) (text : Text) : FileTree × Bool :=
  match tree.entryOf path with
  | .error _ => (tree, false)
  | .ok place =>
    if tree.node? place = some .directory then (tree, false)
    else (tree.setNode place (.file text), true)

instance : Disk (StateM FileTree) where
  workingDirectory := do
    return '/' :: ['/'].intercalate (← get).workingDirectory
  isPresent path := do return ((← get).nodeAt? path).isSome
  isDirectory path := do return (← get).isDirectory path
  read? path := do return (← get).read? path
  createDirectories path := modifyGet fun tree =>
    let (changed, done) := tree.createDirectories path
    (done, changed)
  replace path text := modifyGet fun tree =>
    let (changed, done) := tree.replace path text
    (done, changed)

end FileTree
end Scaffold

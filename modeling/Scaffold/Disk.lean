/-
# Disks

A disk holds files and directories. Everything the library does with files goes through these few
operations, in whatever monad provides them.
-/

import Scaffold.Path

namespace Scaffold

/-- The operations on a disk. -/
class Disk (m : Type → Type) where
  /-- The directory that relative paths start from. -/
  workingDirectory : m Path
  /-- Whether there is anything at a path. -/
  isPresent : Path → m Bool
  isDirectory : Path → m Bool
  /-- The text of a file; nothing if it cannot be read or is no text. -/
  read? : Path → m (Option Text)
  /-- Creates a directory, and those above it, where they are missing; says whether the directory
  is there now. -/
  createDirectories : Path → m Bool
  /-- Puts a text in the place of a file, or makes the file, in a directory that is there; says
  whether that was done. -/
  replace : Path → Text → m Bool

end Scaffold
